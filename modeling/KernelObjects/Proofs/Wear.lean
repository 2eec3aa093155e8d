import KernelObjects.Proofs.Generations
import KernelObjects.Proofs.Paces
import KernelObjects.Proofs.PortResets
import KernelObjects.Proofs.RefusedCreation

/-
# How slots wear

The generation of a slot moves on when its handle is closed, and at no other time.  So a slot in
which nothing is made stays as it is, or loses its handle and then stays empty (`Worn`).
Destroying, killing and walking, however long the chain, make no handle and do no more to the
slots than that (`Declines.wears`).

Four operations have an arena make a handle, and each of them asks only once (`World.asks`).  What
an operation does besides, before or after that, wears the slots (`World.Passed.act_wears`).  So
every handle that there is was there before the operation or is the one that it asked for.

The request is answered in the state in which the operation finds the arena, and what the
operation does before it is no matter to arenas.  A table that duplicates may close a handle
afterwards, the one that the duplicate replaces; a kernel handle gives back a reference.  That is
why an operation is compared with the state in which its request was just answered
(`World.answered`), and not with the one in which it began.
-/

namespace KernelObjects

open HandleValue

/-! ## 1. Wear

A slot that wears is the same, or it lost its handle and shows the next generation; and no new
handle comes.  Closing a handle wears its slot, and everything else that destroys wears none. -/

/-- What becomes of a slot in which nothing is made. -/
inductive Worn : Option Slot → Option Slot → Prop
  | kept {x : Option Slot} : Worn x x
  | freed {g : Nat} {h : HandleId} : Worn (some ⟨g, some h⟩) (some ⟨nextGeneration g, none⟩)

/-- Wear adds up. -/
theorem Worn.trans {x y z : Option Slot} (h : Worn x y) (h' : Worn y z) : Worn x z := by
  cases h with
  | kept => exact h'
  | freed =>
    cases h' with
    | kept => exact .freed

/-- Slots wear, and no handle is there that was not there before. -/
structure System.Wears (s t : System) : Prop where
  slot : ∀ i n, Worn (s.slot i n) (t.slot i n)
  handle : ∀ {x : Nat} {r : Handle}, t.handles[x]? = some r →
    ∃ q, s.handles[x]? = some q ∧ q.kin = r.kin

namespace System

variable {s t u : System} {d : List Task}

/-- A slot is part of an arena and of nothing else. -/
theorem slot_congr_arenas (h : t.arenas = s.arenas) (i : ArenaId) (n : Nat) :
    t.slot i n = s.slot i n := by
  unfold slot
  rw [h]

namespace Wears

theorem refl (s : System) : Wears s s := ⟨fun _ _ => .kept, fun hr => ⟨_, hr, rfl⟩⟩

theorem trans (h : Wears s t) (h' : Wears t u) : Wears s u where
  slot i n := (h.slot i n).trans (h'.slot i n)
  handle hr := by
    obtain ⟨q, hq, hkin⟩ := h'.handle hr
    obtain ⟨p, hp, hkin'⟩ := h.handle hq
    exact ⟨p, hp, hkin'.trans hkin⟩

/-- Arenas that stay and handles that stay, up to what may be written into a handle, are no wear. -/
theorem of_kin (ha : t.arenas = s.arenas)
    (hh : ∀ x : Nat, t.handles[x]?.map Handle.kin = s.handles[x]?.map Handle.kin) : Wears s t where
  slot i n := slot_congr_arenas ha i n ▸ .kept
  handle {x r} hr := by
    have hkin := hh x
    rw [hr] at hkin
    exact Option.map_eq_some_iff.1 hkin.symm

/-- What is inert wears nothing, -/
theorem of_inert (h : Inert s t) : Wears s t := .of_kin h.arenas h.handle

/-- Whatever leaves arenas and handles alone. -/
theorem of_eq (h : (t.arenas, t.handles) = (s.arenas, s.handles)) : Wears s t := by
  obtain ⟨ha, hh⟩ := Prod.mk.injEq .. ▸ h
  exact .of_kin ha fun x => by rw [hh]

/-- nor does what leaves arenas and handles as they are. -/
theorem of_hands (h : t.hands = s.hands) : Wears s t :=
  .of_eq (Prod.ext (congrArg Hands.arenas h) (congrArg Hands.handles h))

/-- A new arena has no slots. -/
theorem openArena {a : ArenaId} (ha : s.arenas[a]? = none) (capacity : Nat) :
    Wears s { s with arenas := s.arenas.insert a (Arena.ofCapacity capacity) } where
  slot i n := by
    have hsame : ({ s with arenas := s.arenas.insert a (Arena.ofCapacity capacity) }
        : System).slot i n = s.slot i n := by
      unfold System.slot
      dsimp only
      rw [Store.getElem?_insert]
      split
      · rename_i he
        rw [← he, ha]
        rfl
      · rfl
    rw [hsame]
    exact .kept
  handle hr := ⟨_, hr, rfl⟩

end Wears

end System

/-- No edit makes a handle. -/
theorem Edit.wears {a : Topic} {s t : System} (h : Edit a s t) : s.Wears t := by
  induction h with
  | refl => exact .refl _
  | trans _ _ ih ih' => exact ih.trans ih'
  | config | space | job | process | vmo | member | owned | unmapped => exact .of_eq rfl
  | owner process h => exact .of_inert (System.inert_setProcess _ process h)

namespace System

/-- To free a slot moves its generation on and empties it; all other slots stay. -/
theorem slot_withoutSlot (s : System) (r : Handle) (i : ArenaId) (n : Nat) :
    (s.withoutSlot r).slot i n = if r.arena = i ∧ index r.base = n
      then (s.slot i n).map fun x => ⟨nextGeneration x.generation, none⟩ else s.slot i n := by
  unfold slot withoutSlot
  dsimp only
  rw [Store.getElem?_modify]
  by_cases hi : r.arena = i
  · rw [if_pos hi]
    simp only [hi, true_and]
    cases s.arenas[i]? with
    | none => exact (ite_self _).symm
    | some a => exact Arena.getElem?_erase a r.base n
  · rw [if_neg hi, if_neg fun h => hi h.1]

end System

/-- **Nothing that declines makes a handle**: slots wear, and that is all. -/
theorem Decline.wears {K P : Koid → Prop} {w w' : World} (h : Decline K P w w')
    (hp : w.Passed True True) : w.system.Wears w'.system := by
  cases h with
  | inert h => exact .of_inert h
  | vmo =>
    rename_i s d v o _ _
    obtain ⟨families, he, -⟩ := s.withoutVmo_eq v o
    rw [he]
    exact .of_eq rfl
  | @handle s d x r h1 hh =>
    refine ⟨fun i n => .kept, fun {a q} hq => ⟨q, ?_, rfl⟩⟩
    rw [Store.getElem?_erase] at hq
    split at hq
    · cases hq
    · exact hq
  | @close s d x r hx =>
    -- the handle that is closed stands in its slot, so no empty slot moves on
    refine ⟨fun i n => ?_, fun hr => ⟨_, hr, rfl⟩⟩
    have hown : 0 < s.owners (.close x :: d) x := by
      rw [System.owners_close, if_pos rfl]
      exact Nat.succ_pos _
    obtain ⟨a, ha, hplace⟩ := hp.slotted.slot hx hown
    dsimp only
    rw [System.slot_withoutSlot]
    split
    · rename_i he
      obtain ⟨rfl, rfl⟩ := he
      rw [System.slot_eq.2 ⟨a, ha, hplace⟩]
      exact .freed
    · exact .kept
  | _ => exact .of_eq rfl

/-- Along declines slots are freed, one after the other, and none is filled. -/
theorem Declines.wears {K P : Koid → Prop} {w w' : World} (h : Declines K P w w')
    (hp : w.Passed True True) : w.system.Wears w'.system := by
  induction h with
  | refl => exact .refl _
  | tail hrun hstep ih => exact ih.trans (hstep.wears (hp.trans (Declines.moves hrun)))

namespace World.Passed

variable {s t u : System} {d : List Task}

/-- What is declining in whatever way. -/
theorem wears (hp : Passed True True ⟨s, d⟩)
    (h : Declines (fun _ => True) (fun _ => True) ⟨s, d⟩ ⟨t, d⟩) : s.Wears t := Declines.wears h hp

/-- So what follows from a list of tasks is wear. -/
theorem wears_settle (ts : List Task) (hp : Passed True True ⟨s, ts ++ d⟩) :
    s.Wears (s.settle ts) :=
  Declines.wears (K := fun _ => True) (P := fun _ => True) (s.settle_declines ts d) hp

theorem wears_release {r : Ref} (hp : Passed True True ⟨s, .release r :: d⟩) :
    s.Wears (s.release r) := wears_settle [.release r] hp

end World.Passed

/-! ## 2. Creating, killing and walking

These make no handles, so all that they do to slots comes from what they destroy on the way. -/

namespace System

variable {s : System} {d : List Task}

theorem createRootJob_wears (s : System) (hasHaltHandler : Bool) :
    s.Wears (s.createRootJob hasHaltHandler).2 := by
  unfold createRootJob
  dsimp only
  obtain ⟨counters, registry, he⟩ := s.settledConfig.2.addJob_eq
    { parent := none, maxHeight := s.settledConfig.1.rootHeight, name := rootName, hasHaltHandler
      policy := Policy.initial }
  rw [he]
  exact s.settledConfig_edit.wears.trans (.of_eq rfl)

theorem createJob_wears (hp : World.Passed True True ⟨s, d⟩) (p : Koid) :
    s.Wears (s.createJob p).2 := by
  have hentered : ∀ (q : Job) (height : Nat), s.Wears (s.addChild p q height) := by
    intro q height
    obtain ⟨counters, registry, he⟩ := s.addChild_eq p q height
    rw [he]
    exact .of_eq rfl
  have hcreation := createJob_creation hp.accounted p
  generalize s.createJob p = r at hcreation
  cases hcreation with
  | absent | low => exact .refl s
  | @taken q height => exact (hentered q height).trans (.of_hands (hands_attach _ _ _))
  | @untaken q height hq hh hr =>
    exact (hentered q height).trans (hp.trans (addChild_moves hq hh hr)).wears_release

/-- A new arena has no slots yet, so it takes the place of nothing. -/
theorem openSharedArena_wears (s : System) : s.Wears s.openSharedArena := by
  rw [openSharedArena_eq]
  split
  · exact .refl s
  · rename_i hc
    have hnone := Store.contains_eq_false_iff.1 (Bool.eq_false_iff.2 hc)
    exact (Wears.openArena hnone _).trans (.of_eq rfl)

/-- A process comes with an empty table, and a refused one goes again with it. -/
theorem createProcess_wears (hp : World.Passed True True ⟨s, d⟩) (job : Koid) (name : Name) :
    s.Wears (s.createProcess job name).2 := by
  have hcreation := s.createProcess_creation job name
  generalize s.createProcess job name = r at hcreation
  cases hcreation with
  | absent => exact .refl s
  | offered hoffer =>
    have hopened := hp.trans (openSharedArena_moves hp.accounted)
    refine s.openSharedArena_wears.trans ?_
    generalize s.openSharedArena = t at hoffer hopened
    have hentered : ∀ policy, t.Wears (t.enterProcess job name policy) := fun _ => .of_eq rfl
    cases hoffer with
    | taken => exact (hentered _).trans (.of_hands (hands_attach _ _ _))
    | @untaken j hj =>
      have hthere : t.jobs.contains job := Store.contains_iff.2 ⟨j, hj⟩
      exact (hentered _).trans (hopened.trans (enterProcess_moves hthere name _)).wears_release

theorem createVmo_wears (s : System) (size : Nat) (options : BitVec 32) :
    s.Wears (s.createVmo size options).2 := by
  have hcreation := s.createVmo_creation size options
  generalize s.createVmo size options = r at hcreation
  cases hcreation with
  | unfit => exact .refl s
  | born => exact .of_eq rfl

theorem cloneVmo_wears (s : System) (v : VmoId) (ask : CloneRequest) :
    s.Wears (s.cloneVmo v ask).2 := by
  have hcreation := s.cloneVmo_creation v ask
  generalize s.cloneVmo v ask = r at hcreation
  cases hcreation with
  | refused => exact .refl s
  | @first o c =>
    have hborn : s.Wears (s.withClone v (o.cloneRecord v ask)
        { size := c, parentOffset := ask.offset }) := .of_eq rfl
    exact hborn.trans (.of_inert (inert_tellWatcher _ _ _))
  | further => exact .of_eq rfl

theorem createView_wears (hp : World.Passed True True ⟨s, d⟩) (v : VmoId) :
    s.Wears (s.createView v).2 := by
  have hentered : s.Wears (s.enterView v) := .of_eq rfl
  have hcreation := s.createView_creation v
  generalize s.createView v = r at hcreation
  cases hcreation with
  | absent => exact .refl s
  | @stamped o ho =>
    exact hentered.trans (hp.trans (enterView_moves (Store.contains_iff.2 ⟨o, ho⟩))).wears_release
  | taken =>
    exact hentered.trans (.trans (setUserId_edit _ _ _).wears (setWatcher_edit _ _ _).wears)

theorem enforcePolicy_wears (hp : World.Passed True True ⟨s, d⟩) (k : Koid) (c : Condition) :
    s.Wears (s.enforcePolicy k c).2 := by
  unfold enforcePolicy
  split
  · exact .refl s
  · dsimp only
    split
    · exact hp.wears (s.killProcess_declines _ trivial d)
    · exact .refl s

/-- Emptying a port slot is a decline: the walk below only touches waiting exceptions. -/
theorem resetPort_wears (hp : World.Passed True True ⟨s, d⟩) (refuses : Allocator) (k : Koid)
    (debugger : Bool) : s.Wears (s.resetPort refuses k debugger).2 := by
  by_cases h : ∀ j, s.jobs[k]? = some j → j.slot debugger = none
  · rw [resetPort_of_unbound h]
    exact .refl s
  · simp only [not_forall] at h
    obtain ⟨j, hj, hslot⟩ := h
    obtain ⟨p, hbound⟩ := Option.ne_none_iff_exists'.1 hslot
    rw [resetPort_of_bound hj hbound]
    have hkeeps : Walk.Keeps (dropReportsVisitor p) fun w _ =>
        Declines (fun _ => True) (fun _ => True) ⟨s, d⟩ w :=
      { lending := fun _ => lending_declines ⟨s, d⟩
        visit := fun v u own e hi => by
          cases v with
          | job k => exact hi
          | process k => exact hi.trans (((u.dropReports_edit p k).inert (by decide)).declines e) }
    exact hp.wears (walk_keeps hkeeps _ refuses k true () d
      ((s.inert_unslotted k debugger p).declines d))

end System

/-! ## 3. What operations ask for

A request is what an arena is asked for, with the object and the rights.  The answer is the state
after it, whether a handle was made or not. -/

/-- What an arena is asked for: a handle to an object. -/
structure HandleRequest where
  arena : ArenaId
  object : Koid
  rights : Rights
  /-- Whether there is memory for a new slot. -/
  mayGrow : Bool
  deriving DecidableEq, Repr

namespace System

/-- What comes of a request. -/
def answer (s : System) (q : HandleRequest) : Outcome HandleId × System :=
  s.makeHandle q.arena q.object q.rights q.mayGrow

/-- The handle that is made on a request, as it is made. -/
def gives (s : System) (q : HandleRequest) : Option Handle :=
  match s.answer q with
  | (.ok h, t) => t.handles[h]?
  | (.error _, _) => none

/-- What a table asks for in order to duplicate a handle. -/
def duplicateRequest (s : System) (t : TableId) (value : Nat) (requested : Rights) :
    Option HandleRequest :=
  match s.tableGet t value with
  | .error _ => none
  | .ok h =>
    match s.handles[h]? with
    | none => none
    | some r =>
      match duplicateRights r.rights requested with
      | .error _ => none
      | .ok rights => some ⟨r.arena, r.object, rights, true⟩

/-- A table that is asked for a duplicate does nothing, or it asks for a handle, takes it in and
holds the source while it does. -/
theorem tableDuplicate_cases (s : System) (t : TableId) (value : Nat) (requested : Rights) :
    s.duplicateRequest t value requested = none ∧ (s.tableDuplicate t value requested).2 = s ∨
    ∃ (a : HandleId) (r : Handle) (rights : Rights), s.tableGet t value = .ok a ∧
      s.handles[a]? = some r ∧
      s.duplicateRequest t value requested = some ⟨r.arena, r.object, rights, true⟩ ∧
      (s.tableDuplicate t value requested).2 =
        match s.makeHandle r.arena r.object rights true with
        | (.error _, u) => u
        | (.ok b, u) => ((u.retain (.handle a)).tableAdd t b).2.release (.handle a) := by
  unfold duplicateRequest tableDuplicate
  cases hg : s.tableGet t value with
  | error e => exact .inl ⟨rfl, rfl⟩
  | ok a =>
    dsimp only
    cases hr : s.handles[a]? with
    | none => exact .inl ⟨rfl, rfl⟩
    | some r =>
      dsimp only
      cases duplicateRights r.rights requested with
      | error e => exact .inl ⟨rfl, rfl⟩
      | ok rights =>
        refine .inr ⟨a, r, rights, rfl, hr, rfl, ?_⟩
        dsimp only
        obtain ⟨_ | _, _⟩ := s.makeHandle r.arena r.object rights true <;> rfl

end System

namespace World

/-- The handle that an operation asks for, if it asks for one. -/
def asks (w : World) : Op → Option HandleRequest
  | .makeHandle arena k rights mayGrow =>
    if w.system.Present (.object k) then some ⟨arena, k, rights, mayGrow⟩ else none
  | .makeFromKernel arena (some k) rights =>
    if .release (.object k) ∈ w.dues then some ⟨arena, k, rights, true⟩ else none
  | .duplicateHandle h rights => w.system.handles[h]?.map fun r => ⟨r.arena, r.object, rights, true⟩
  | .tableDuplicate t value rights => w.system.duplicateRequest t value rights
  | _ => none

/-- The state after the request of an operation was answered. -/
def answered (w : World) (op : Op) : System :=
  match w.asks op with
  | none => w.system
  | some q => (w.system.answer q).2

/-- The handle that an operation has an arena make, as it is made. -/
def made (w : World) (op : Op) : Option Handle := (w.asks op).bind w.system.gives

variable {w : World}

/-- An operation that asks for no handle has nothing to be answered. -/
theorem answered_of_none {op : Op} (h : w.asks op = none) : w.answered op = w.system := by
  unfold answered
  rw [h]

theorem answered_of_some {op : Op} {q : HandleRequest} (h : w.asks op = some q) :
    w.answered op = (w.system.answer q).2 := by
  unfold answered
  rw [h]

end World

/-! ## 4. Besides what they ask for, operations wear slots

An operation is split in two: the handle that it asks for, if it asks for one, and the rest.  The
rest is wear. -/

namespace World.Passed

variable {s : System} {d : List Task} {w : World}

theorem stages {L : Liberties} {v : World} (hp : w.Passed True True) (h : Stages L w v) :
    v.Passed True True := hp.trans (h.moves (fun _ => trivial) fun _ => trivial)

/-- A table takes in a handle, and what it owned under the same value is closed. -/
theorem tableAdd_wears {t : TableId} {a : HandleId} (hp : Passed True True ⟨s, .close a :: d⟩)
    (ht : s.tables.contains t) (ha : s.handles.contains a) : s.Wears (s.tableAdd t a).2 := by
  obtain ⟨table, ht⟩ := Store.contains_iff.1 ht
  obtain ⟨r, hr⟩ := Store.contains_iff.1 ha
  rw [System.tableAdd_eq ht hr]
  have hadopts := hp.trans (System.adopt_moves ht hr)
  have htaken : s.Wears ((s.setProcess table.process a).setOwned t (table.owned.insert r.base a)) :=
    (System.Wears.of_inert (s.inert_setProcess _ _)).trans (.of_eq rfl)
  cases hold : table.owned[r.base]? with
  | none => exact htaken
  | some old =>
    rw [hold] at hadopts
    exact htaken.trans (wears_settle [.close old] hadopts)

/-- A kernel handle that was used up gives back its reference. -/
theorem makeFromKernel_wears {k : Koid} (hp : Passed True True ⟨s, .release (.object k) :: d⟩)
    (arena : ArenaId) (rights : Rights) :
    (s.makeHandle arena k rights true).2.Wears (s.makeFromKernel arena (some k) rights).2 := by
  have hk : s.Present (.object k) := hp.accounted.present_of_owed (by simp [Task.holds])
  have hmade := hp.stages (System.makeHandle_stages (L := {}) s arena rights true hk _)
  unfold System.makeFromKernel
  dsimp only
  generalize s.makeHandle arena k rights true = r at hmade ⊢
  obtain ⟨e | h, u⟩ := r
  · have htold : Inert u (u.zeroHandles k) := u.inert_zeroHandles k
    exact (System.Wears.of_inert htold).trans (hmade.trans (htold.moves _)).wears_release
  · exact (hmade.trans (u.reorder_moves (List.Perm.swap ..))).wears_release

/-- A duplicate is put in a slot first, and then in the table, where a handle of equal base value
that it finds is closed.  That is the wear; the rest is references. -/
theorem tableDuplicate_wears (hp : Passed True True ⟨s, d⟩) (t : TableId) (value : Nat)
    (requested : Rights) :
    (answered ⟨s, d⟩ (.tableDuplicate t value requested)).Wears
      (s.tableDuplicate t value requested).2 := by
  obtain ⟨hq, he⟩ | ⟨a, r, rights, hg, hr, hq, he⟩ := s.tableDuplicate_cases t value requested
  · have hasks : asks ⟨s, d⟩ (.tableDuplicate t value requested) = none := hq
    rw [answered_of_none hasks, he]
    exact .refl s
  · have hasks : asks ⟨s, d⟩ (.tableDuplicate t value requested) =
      some ⟨r.arena, r.object, rights, true⟩ := hq
    rw [answered_of_some hasks, he]
    unfold System.answer
    dsimp only
    have hk := hp.accounted.present_of_held (held_of_handle hr)
    have hmade := hp.stages (System.makeHandle_stages (L := {}) s r.arena rights true hk _)
    obtain ⟨table, ht⟩ := System.tables_of_tableGet hg
    cases hm : s.makeHandle r.arena r.object rights true with
    | mk result u =>
      cases result with
      | error e => exact .refl u
      | ok b =>
        rw [hm] at hmade
        obtain ⟨arena, harena, hfull, rfl, rfl⟩ := System.makeHandle_ok hm
        set u := s.withHandle r.arena arena r.object rights
        have hthere : u.Present (.handle a) :=
          (Store.contains_insert _ _ _ _).2 (.inr (Store.contains_iff.2 ⟨r, hr⟩))
        have hshare : Decline (fun _ => True) (fun _ => True) ⟨u, .close s.nextId :: d⟩
            ⟨u.retain (.handle a), .release (.handle a) :: .close s.nextId :: d⟩ := .share hthere
        -- The source is held over the making and the adding, as the table may close it: a handle
        -- that stands under the same value makes room.
        have hheld := (hmade.trans (.single (.inl hshare))).trans
          (System.reorder_moves _ (List.Perm.swap ..))
        have htable : (u.retain (.handle a)).tables[t]? = some table := ht
        have hnew : (u.retain (.handle a)).handles.contains s.nextId :=
          (Store.contains_insert _ _ _ _).2 (.inl rfl)
        obtain ⟨q, hq⟩ := Store.contains_iff.1 hnew
        have hadded := hheld.stages (System.tableAdd_stages (L := { adopts := fun _ _ => True })
          (u.retain (.handle a)) trivial htable hq _)
        have hretained : u.Wears (u.retain (.handle a)) := .of_eq rfl
        exact (hretained.trans (hheld.tableAdd_wears (Store.contains_iff.2 ⟨table, htable⟩)
          hnew)).trans hadded.wears_release

end World.Passed

/-- **Besides what it asks for, every operation wears the slots.** -/
theorem World.Passed.act_wears {w : World} (hp : w.Passed True True) (op : Op) :
    (w.answered op).Wears (w.act op).system := by
  obtain ⟨s, d⟩ := w
  have hacc : Accounted s d := hp.accounted
  -- four operations are compared with the answer to their request; for all others that is the
  -- state in which they begin
  cases op with
  | createRootJob hasHaltHandler => exact s.createRootJob_wears hasHaltHandler
  | createJob parent =>
    rw [act, system_after]
    exact System.createJob_wears hp parent
  | createProcess job name =>
    rw [act, system_after]
    exact System.createProcess_wears hp job name
  | createVmo size options =>
    rw [act, system_after]
    exact s.createVmo_wears size options
  | cloneVmo v ask =>
    rw [act, system_after]
    exact s.cloneVmo_wears v ask
  | createView v =>
    rw [act, system_after]
    exact System.createView_wears hp v
  | newArena capacity =>
    have hnone : s.arenas[s.nextId]? = none := Store.contains_eq_false_iff.1
      (Bool.eq_false_iff.2 fun hc => Nat.lt_irrefl _ (hacc.bounded.arena hc))
    exact (System.Wears.openArena hnone capacity).trans (.of_eq rfl)
  | openSharedArena => exact s.openSharedArena_wears
  | share r =>
    rw [act]
    split
    · exact .of_eq rfl
    · exact .refl s
  | drop t =>
    rw [act]
    split
    · rename_i ht
      exact (hp.trans (s.reorder_moves (List.perm_cons_erase ht))).wears_settle [t]
    · exact .refl s
  | makeHandle arena k rights mayGrow =>
    by_cases hk : s.Present (.object k)
    · have hasks : asks ⟨s, d⟩ (.makeHandle arena k rights mayGrow) =
        some ⟨arena, k, rights, mayGrow⟩ := if_pos hk
      rw [answered_of_some hasks, act, if_pos hk, system_after]
      exact .refl _
    · have hasks : asks ⟨s, d⟩ (.makeHandle arena k rights mayGrow) = none := if_neg hk
      rw [answered_of_none hasks, act, if_neg hk]
      exact .refl s
  | makeFromKernel arena kernel rights =>
    cases kernel with
    | none => exact .refl s
    | some k =>
      by_cases hk : .release (.object k) ∈ d
      · have hasks : asks ⟨s, d⟩ (.makeFromKernel arena (some k) rights) =
          some ⟨arena, k, rights, true⟩ := if_pos hk
        rw [answered_of_some hasks, act, if_pos hk, system_after]
        exact (hp.trans (s.reorder_moves (List.perm_cons_erase hk))).makeFromKernel_wears arena
          rights
      · have hasks : asks ⟨s, d⟩ (.makeFromKernel arena (some k) rights) = none := if_neg hk
        rw [answered_of_none hasks, act, if_neg hk]
        exact .refl s
  | duplicateHandle h rights =>
    rw [act, system_after, System.duplicateHandle]
    cases hr : s.handles[h]? with
    | none =>
      have hasks : asks ⟨s, d⟩ (.duplicateHandle h rights) = none := by
        rw [asks, hr, Option.map_none]
      rw [answered_of_none hasks]
      exact .refl s
    | some r =>
      have hasks : asks ⟨s, d⟩ (.duplicateHandle h rights) =
          some ⟨r.arena, r.object, rights, true⟩ := by
        rw [asks, hr, Option.map_some]
      rw [answered_of_some hasks]
      exact .refl _
  | tableAdd t h =>
    rw [act]
    split
    · rename_i ht
      have hthere : s.Present (.handle h) :=
        hacc.present_of_owed (owed_pos ht.1 (by simp [Task.holds]))
      exact (hp.trans (s.reorder_moves (List.perm_cons_erase ht.1))).tableAdd_wears ht.2 hthere
    · exact .refl s
  | tableRemove t value =>
    rw [act, system_after]
    exact (s.tableRemove_edit t value).wears
  | tableDuplicate t value rights => exact hp.tableDuplicate_wears t value rights
  | tableClear t => exact hp.wears (s.tableClear_declines t d)
  | killJob refuses code k => exact hp.wears (s.killJob_declines refuses code k d)
  | killProcess code k => exact hp.wears (s.killProcess_declines code trivial d)
  | enforcePolicy k c => exact System.enforcePolicy_wears hp k c
  | attachProcess k p => exact .of_hands (s.hands_attach k _)
  | detachProcess k p => exact .of_hands (s.detachProcess_upkeep k p).hands
  | resetPort refuses k debugger => exact System.resetPort_wears hp refuses k debugger
  | zeroHandles k => exact .of_inert (s.inert_zeroHandles k)
  | forgetClone v clone => exact .of_hands (s.hands_forgetClone v clone)
  | openSpace | settledConfig | installConfig | setKillOnOom | nameJob | nameProcess | nameVmo
  | dropReports | setProcess | setUserId | setWatcher | recordClone | addMapping | removeMapping
  | unmapSpan | rangeChanged | amendPolicy | bindPort | report | commit | decommit | resize
  | setCachePolicy => exact (act_edit rfl ⟨s, d⟩).wears
  | _ => exact .of_eq rfl

end KernelObjects
