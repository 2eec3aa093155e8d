import KernelObjects.Proofs.Ledger

/-
# What a dead job holds

A job that dies gives up its ports, and no job comes back from the dead.  But a port can be bound
to any job that is there, whatever its state, so a dead job need not be without ports for good.

What is in the slots of a dead job is what was put there while it was dead and was not taken out
again (`World.Ran.dead_slots`).  Nothing else gets into a slot of a dead job or out of it: a shift
keeps dead jobs as they are, unless it belongs to the operation that empties the slot
(`Ledger.Becomes`).

The property is one of the history, and the history is given in legs, one for each operation.
Inside of a leg a job may be born, or die and give up its ports, so slots are compared with the
start of the leg (`Since`): they were those of a dead job at that time, up to a reset, or the job
was not dead then and they are empty.

Operations that bind are looked at apart.  A binding is one write, so no shifts are needed for it,
and what it does depends on the state of the job only in what is said about it afterwards.
-/

namespace KernelObjects

/-- Whether an operation empties a slot of a job. -/
def Op.Resets (k : Koid) (b : Bool) : Op → Prop
  | resetPort _ c d => c = k ∧ d = b
  | _ => False

/-- Whether an operation binds a port. -/
def Op.Binds : Op → Prop
  | bindPort .. => True
  | _ => False

/-! ## 1. Shifts and the slots of a job

What one shift can do to the slots of a job, if it binds no port.  The shifts are gone through
once, for the question where a job that is there comes from. -/

namespace Ledger

variable {op : Op} {l l' : Ledger} {k c : Koid} {p q : Job.Post}

/-- What becomes of the state and the slots of a job, if no port is bound. -/
structure Becomes (op : Op) (k : Koid) (p q : Job.Post) : Prop where
  dead : p.state = .dead → q.state = .dead
  slot : ∀ b, q.slot b = p.slot b ∨ q.slot b = none ∧ (p.state = .dead → op.Resets k b)
  died : q.state = .dead → p.state ≠ .dead → ∀ b, q.slot b = none

/-- A job may stay what it is. -/
theorem Becomes.refl (p : Job.Post) : Becomes op k p p where
  dead := id
  slot _ := .inl rfl
  died h hn := absurd h hn

theorem ne_dead {x : JobState} (h : x = .ready) : x ≠ .dead := by
  rw [h]
  exact JobState.noConfusion

/-- A job that was not dead and has the same slots. -/
theorem Becomes.of_slot (hs : q.slot = p.slot) (hp : p.state ≠ .dead) (hq : q.state ≠ .dead) :
    Becomes op k p q where
  dead h := absurd h hp
  slot b := .inl (congrFun hs b)
  died h := absurd h hq

/-- A job that dies. -/
theorem Becomes.of_none (hs : ∀ b, q.slot b = none) (hp : p.state ≠ .dead) : Becomes op k p q where
  dead h := absurd h hp
  slot b := .inr ⟨hs b, fun h => absurd h hp⟩
  died _ _ := hs

/-- Where a job comes from. -/
inductive Origin (op : Op) (k : Koid) (l l' : Ledger) (q : Job.Post) : Prop
  | born (hk : l.nextKoid ≤ k) (hk' : k < l'.nextKoid) (h : q.Newborn)
  | old {p : Job.Post} (hp : l.jobs[k]? = some p) (h : Becomes op k p q)

/-- A job that is written to comes of what it was, and all others of themselves. -/
theorem origin_of_insert {r : Job.Post} (hp : l.jobs[c]? = some p)
    (he : l'.jobs = l.jobs.insert c q) (h : Becomes op c p q) (hr : l'.jobs[k]? = some r) :
    Origin op k l l' r := by
  rw [he, Store.getElem?_insert] at hr
  by_cases hc : c = k
  · subst hc
    rw [if_pos rfl] at hr
    cases hr
    exact .old hp h
  · rw [if_neg hc] at hr
    exact .old hr (.refl r)

/-- **A job that is there was born, or it is what became of the one that was there.** -/
theorem Change.origin (h : Change op l l') (hop : ¬ op.Binds) (hq : l'.jobs[k]? = some q) :
    Origin op k l l' q := by
  -- For a job that was there each change says what may have become of its slots.  Burying empties
  -- both, unbinding one, and the others leave them alone; binding is ruled out by `hop`.
  cases h with
  | @born j hn hj =>
    have hget : (l.jobs.insert l.nextKoid j)[k]? = some q := hq
    rw [Store.getElem?_insert] at hget
    split at hget
    · rename_i hk
      cases hget
      exact .born (Nat.le_of_eq hk) (hk ▸ Nat.lt_succ_self _) hj
    · exact .old hget (.refl q)
  | @gone c j hj =>
    have hget : (l.jobs.erase c)[k]? = some q := hq
    rw [Store.getElem?_erase] at hget
    split at hget
    · cases hget
    · exact .old hget (.refl q)
  | listed hj hr hne =>
    refine origin_of_insert hj rfl ?_ hq
    exact .of_slot rfl (ne_dead hr) (ne_dead hr)
  | condemned hj hr hv =>
    refine origin_of_insert hj rfl ?_ hq
    exact .of_slot rfl (ne_dead hr) JobState.noConfusion
  | buried hj hr hv =>
    refine origin_of_insert hj rfl ?_ hq
    exact .of_none (fun _ => rfl) (ne_dead hr)
  | @unbound refuses c j r b ho hj hs =>
    refine origin_of_insert hj rfl ?_ hq
    refine ⟨id, fun d => ?_, fun hd hn => absurd hd hn⟩
    unfold Job.Post.setSlot
    dsimp only
    split
    · rename_i hb
      exact .inr ⟨rfl, fun _ => ho ▸ ⟨rfl, hb⟩⟩
    · exact .inl rfl
  | bound ho hj hs => exact absurd (ho ▸ trivial : op.Binds) hop
  | _ => exact .old hq (.refl q)

/-- A child that leaves may take its parent from dying to dead, which empties the slots. -/
theorem origin_of_leave {js ps : List Koid} (hp : l.jobs[c]? = some p)
    (he : l' = l.leave c { p with jobs := js, processes := ps }) (hq : l'.jobs[k]? = some q) :
    Origin op k l l' q := by
  set i : Job.Post := { p with jobs := js, processes := ps }
  refine origin_of_insert hp (q := i.bereft) (he ▸ rfl) ?_ hq
  cases hd : i.dies with
  | true =>
    have hkilling : p.state = .killing := of_decide_eq_true (Bool.and_eq_true_iff.1 hd).2
    refine .of_none (fun b => ?_) (by rw [hkilling]; exact JobState.noConfusion)
    rw [i.slot_bereft, if_pos hd]
  | false =>
    have hstate : i.bereft.state = p.state := i.state_bereft.trans (if_neg (ne_true_of_eq_false hd))
    have hslot : i.bereft.slot = p.slot := i.slot_bereft.trans (if_neg (ne_true_of_eq_false hd))
    exact ⟨fun h => hstate.trans h, fun b => .inl (congrFun hslot b),
      fun h hn => absurd (hstate.symm.trans h) hn⟩

end Ledger

namespace System

variable {op : Op} {s t : System} {k : Koid} {j : Job} {b : Bool}

/-- So after one shift each job comes of one that was there, or is new. -/
theorem Shift.origin (h : Shift op s t) (hop : ¬ op.Binds) (hj : t.jobs[k]? = some j) :
    Ledger.Origin op k s.ledger t.ledger j.post := by
  cases h with
  | change hc => exact hc.origin hop (job_ledger hj)
  | left hi hv ht he => exact Ledger.origin_of_leave (job_ledger hi) he (job_ledger hj)

/-- Koids only go up. -/
theorem Shift.nextKoid_le (h : Shift op s t) : s.nextKoid ≤ t.nextKoid := by
  cases h with
  | change hc => exact hc.nextKoid_le
  | left hi hv ht he => exact (congrArg Ledger.nextKoid he).ge

theorem job_of_ledger {p : Job.Post} (h : s.ledger.jobs[k]? = some p) :
    ∃ j, s.jobs[k]? = some j ∧ j.post = p := by
  rw [jobs_ledger] at h
  exact Option.map_eq_some_iff.1 h

/-- A slot of a job, if the job is there, is empty. -/
def SlotEmpty (s : System) (k : Koid) (b : Bool) : Prop :=
  ∀ j : Job, s.jobs[k]? = some j → j.slot b = none

/-- A slot of a dead job that is empty stays so, unless somebody binds a port. -/
theorem Shift.slotEmpty (h : Shift op s t) (hop : ¬ op.Binds) (hs : s.SlotEmpty k b) :
    t.SlotEmpty k b := by
  intro j hj
  cases h.origin hop hj with
  | born hk hk' hnew => exact hnew.slot b
  | old hp hbecomes =>
    obtain ⟨i, hi, rfl⟩ := job_of_ledger hp
    rcases hbecomes.slot b with he | ⟨hn, -⟩
    · exact he.trans (hs i hi)
    · exact hn

/-- The same along the paces of an operation. -/
theorem Paced.slotEmpty (h : Paced op s t) (hop : ¬ op.Binds) (hs : s.SlotEmpty k b) :
    t.SlotEmpty k b := by
  obtain ⟨es, hes⟩ := h
  induction hes with
  | nil => exact hs
  | cons hpace _ ih => exact ih (hpace.shift.slotEmpty hop hs)

/-- A slot that is reset is empty after that, whatever the walk over the processes comes to. -/
theorem resetPort_slotEmpty (s : System) (refuses : Allocator) (k : Koid) (b : Bool) :
    (s.resetPort refuses k b).2.SlotEmpty k b := by
  by_cases h : ∀ j, s.jobs[k]? = some j → j.slot b = none
  · rw [resetPort_of_unbound h]
    exact fun j hj => h j hj
  · simp only [not_forall] at h
    obtain ⟨j, hj, hslot⟩ := h
    obtain ⟨p, hbound⟩ := Option.ne_none_iff_exists'.1 hslot
    rw [resetPort_of_bound hj hbound]
    have hempty : (s.unslotted k b p).SlotEmpty k b := by
      intro i hi
      have hi : (s.jobs.modify k (·.clearSlot b))[k]? = some i := hi
      rw [Store.getElem?_modify, if_pos rfl, hj, Option.map_some, Option.some_inj] at hi
      subst hi
      cases b <;> rfl
    -- nothing that follows from the walk binds anything
    have hwalk : Paced (.resetPort refuses k b) _ _ :=
      (walk_dropReports_chores (s.unslotted k b p) refuses k p []).paced
    exact hwalk.slotEmpty id hempty

end System

/-! ## 2. What was put into the slots of a dead job

The history of a slot since the job died: the last operation that bound something there and was
not undone by a reset. -/

namespace World

/-- A port was bound to a job that was dead. -/
def Leg.BindsDead (k : Koid) (b : Bool) (p : PortId) (l : Leg) : Prop :=
  l.op = .bindPort k p ∧ ∃ j q, l.start.system.jobs[k]? = some j ∧ j.state = .dead ∧
    j.slot b = none ∧ l.start.system.ports[p]? = some q ∧ q.kind.slot? = some b

/-- A port was bound to a job that was dead, and the slot was not emptied since. -/
def Bound (ls : List Leg) (k : Koid) (b : Bool) (p : PortId) : Prop :=
  ∃ as l bs, ls = as ++ l :: bs ∧ l.BindsDead k b p ∧ ∀ m ∈ bs, ¬ m.op.Resets k b

variable {P : System → Op → Prop} {w : World} {ls : List Leg} {m : Leg} {k : Koid} {b : Bool}
  {p : PortId} {s t : System} {op : Op}

/-- The latest leg decides: it binds the port at a dead job, or the port was bound before and the
leg does not reset the slot. -/
theorem bound_concat :
    Bound (ls ++ [m]) k b p ↔ m.BindsDead k b p ∨ Bound ls k b p ∧ ¬ m.op.Resets k b := by
  constructor
  · rintro ⟨as, l, bs, he, hl, hbs⟩
    rcases split_concat he with ⟨-, rfl, -⟩ | ⟨cs, rfl, rfl⟩
    · exact .inl hl
    · exact .inr ⟨⟨as, l, cs, rfl, hl, fun a ha => hbs a (List.mem_append_left _ ha)⟩,
        hbs m (List.mem_append_right _ List.mem_cons_self)⟩
  · rintro (hm | ⟨⟨as, l, bs, rfl, hl, hbs⟩, hm⟩)
    · exact ⟨ls, m, [], rfl, hm, fun a ha => by cases ha⟩
    · refine ⟨as, l, bs ++ [m], by simp, hl, fun a ha => ?_⟩
      rcases List.mem_append.1 ha with ha | ha
      · exact hbs a ha
      · rw [List.mem_singleton.1 ha]
        exact hm

/-- A leg that binds nothing. -/
theorem bound_concat_of_rest (hop : ¬ m.op.Binds) :
    Bound (ls ++ [m]) k b p ↔ Bound ls k b p ∧ ¬ m.op.Resets k b := by
  rw [bound_concat, or_iff_right]
  rintro ⟨he, -⟩
  exact hop (he ▸ trivial)

/-! ## 3. Dead for good

That a job was dead at some time is remembered by its koid: whoever has it now is that job, dead
as it was. -/

/-- If the job of a koid was ever dead, it is dead or gone. -/
def Gone (k : Koid) (s : System) : Prop :=
  k < s.nextKoid ∧ ∀ j : Job, s.jobs[k]? = some j → j.state = .dead

/-- A dead job is as good as gone. -/
theorem Gone.of_dead (hj : s.jobs[k]? = some j) (hd : j.state = .dead) (hk : k < s.nextKoid) :
    Gone k s :=
  ⟨hk, fun i hi => by rw [hj] at hi; cases hi; exact hd⟩

/-- A job that is gone does not come back, and a dead one is not entered again. -/
theorem Gone.shift (h : Gone k s) (hs : System.Shift op s t) (hop : ¬ op.Binds) : Gone k t := by
  refine ⟨Nat.lt_of_lt_of_le h.1 hs.nextKoid_le, fun j hj => ?_⟩
  cases hs.origin hop hj with
  | born hk hk' hnew => exact absurd h.1 (Nat.not_lt.2 hk)
  | old hp hbecomes =>
    obtain ⟨i, hi, rfl⟩ := System.job_of_ledger hp
    exact hbecomes.dead (h.2 i hi)

/-- How the slots of a dead job compare with those at the start of an operation. -/
structure Since (op : Op) (k : Koid) (v s : System) : Prop where
  later : v.nextKoid ≤ s.nextKoid
  known : ∀ j : Job, s.jobs[k]? = some j → k < s.nextKoid
  absent : v.jobs[k]? = none → k < v.nextKoid → s.jobs[k]? = none
  gone : ∀ i : Job, v.jobs[k]? = some i → i.state = .dead → Gone k s
  slots : ∀ j : Job, s.jobs[k]? = some j → j.state = .dead →
    (∃ i : Job, v.jobs[k]? = some i ∧ i.state = .dead ∧
      ∀ b, j.slot b = i.slot b ∨ j.slot b = none ∧ op.Resets k b) ∨
    (∀ i : Job, v.jobs[k]? = some i → i.state ≠ .dead) ∧ ∀ b, j.slot b = none

theorem Since.refl (h : ∀ j : Job, s.jobs[k]? = some j → k < s.nextKoid) : Since op k s s where
  later := Nat.le_refl _
  known := h
  absent hn _ := hn
  gone i hi hd := .of_dead hi hd (h i hi)
  slots j hj hd := .inl ⟨j, hj, hd, fun _ => .inl rfl⟩

/-- **One shift**: the slot of a job that is dead stays as it was or is emptied by a reset, and a
job that dies has both of its slots emptied at its death. -/
theorem Since.shift {v : System} (h : Since op k v s) (hs : System.Shift op s t)
    (hop : ¬ op.Binds) : Since op k v t := by
  have hgone : ∀ i : Job, v.jobs[k]? = some i → i.state = .dead → Gone k t :=
    fun i hi hd => (h.gone i hi hd).shift hs hop
  -- The clauses in turn: known koids, jobs that were never there, jobs that were dead before, and
  -- slots.  Each of them asks first where the job of now comes from.
  refine ⟨Nat.le_trans h.later hs.nextKoid_le, fun j hj => ?_, fun hn hk => ?_, hgone,
    fun j hj hd => ?_⟩
  · cases hs.origin hop hj with
    | born hk hk' hnew => exact hk'
    | old hp hbecomes =>
      obtain ⟨i, hi, -⟩ := System.job_of_ledger hp
      exact Nat.lt_of_lt_of_le (h.known i hi) hs.nextKoid_le
  · by_contra hsome
    obtain ⟨j, hj⟩ := Option.ne_none_iff_exists'.1 hsome
    cases hs.origin hop hj with
    | born hk' _ hnew => exact absurd (Nat.lt_of_lt_of_le hk h.later) (Nat.not_lt.2 hk')
    | old hp hbecomes =>
      obtain ⟨i, hi, -⟩ := System.job_of_ledger hp
      rw [h.absent hn hk] at hi
      cases hi
  · cases hs.origin hop hj with
    | born hk hk' hnew =>
      rw [show j.state = .ready from hnew.state] at hd
      cases hd
    | old hp hbecomes =>
      obtain ⟨i, hi, rfl⟩ := System.job_of_ledger hp
      by_cases hdead : i.state = .dead
      · rcases h.slots i hi hdead with ⟨o, ho, hod, hslots⟩ | ⟨hnot, hslots⟩
        · refine .inl ⟨o, ho, hod, fun b => ?_⟩
          rcases hbecomes.slot b with he | ⟨hn, hr⟩
          · rcases hslots b with he' | ⟨hn', hr'⟩
            · exact .inl (he.trans he')
            · exact .inr ⟨he.trans hn', hr'⟩
          · exact .inr ⟨hn, hr hdead⟩
        · refine .inr ⟨hnot, fun b => ?_⟩
          rcases hbecomes.slot b with he | ⟨hn, -⟩
          · exact he.trans (hslots b)
          · exact hn
      · refine .inr ⟨fun o ho hod => hdead ((h.gone o ho hod).2 i hi), ?_⟩
        exact hbecomes.died hd hdead

/-- The same along shifts. -/
theorem Since.shifts {es : List (System × System)} (hs : System.Shifts op s es t)
    (h : ∀ j : Job, s.jobs[k]? = some j → k < s.nextKoid) (hop : ¬ op.Binds) : Since op k s t :=
  hs.keeps (I := fun _ u => Since op k s u) (fun hi _ hshift => hi.shift hshift hop) [] (.refl h)

/-! ## 4. Runs

Operations one after the other.  A run has to be remembered as a whole, as a slot may have been
filled long ago. -/

/-- A dead job holds what was bound to it while it was dead. -/
structure DeadSlots (k : Koid) (ls : List Leg) (s : System) : Prop where
  known : ∀ j : Job, s.jobs[k]? = some j → k < s.nextKoid
  gone : ∀ l ∈ ls, ∀ i : Job, l.start.system.jobs[k]? = some i → i.state = .dead → Gone k s
  slots : ∀ j : Job, s.jobs[k]? = some j → j.state = .dead →
    ∀ b p, j.slot b = some p ↔ Bound ls k b p

/-- **An operation that binds nothing keeps the slots of dead jobs, but for the one that it
empties.** -/
theorem DeadSlots.rest {v : World} {es : List (System × System)} (h : DeadSlots k ls v.system)
    (hs : System.Shifts op v.system es t) (hop : ¬ op.Binds)
    (hreset : ∀ b, op.Resets k b → t.SlotEmpty k b) : DeadSlots k (ls ++ [⟨v, op, es⟩]) t := by
  have hsince := Since.shifts hs h.known hop
  refine ⟨hsince.known, fun l hl i hi hd => ?_, fun j hj hd b p => ?_⟩
  · rcases List.mem_append.1 hl with hl | hl
    · exact hs.keeps (I := fun _ u => Gone k u) (fun hi _ hshift => hi.shift hshift hop) []
        (h.gone l hl i hi hd)
    · rw [List.mem_singleton.1 hl] at hi
      exact hsince.gone i hi hd
  · rw [bound_concat_of_rest hop]
    -- If the operation empties this very slot, the slot is empty and the last binding is not
    -- current any more.  Otherwise the history of the slot is that of before.
    by_cases hr : op.Resets k b
    · rw [hreset b hr j hj]
      exact ⟨fun hn => (by cases hn), fun hn => absurd hr hn.2⟩
    · rw [and_iff_left hr]
      rcases hsince.slots j hj hd with ⟨i, hi, hid, hslots⟩ | ⟨hnot, hnone⟩
      · rcases hslots b with he | ⟨-, hr'⟩
        · rw [he]
          exact h.slots i hi hid b p
        · exact absurd hr' hr
      · -- the job has died just now, so it was never dead before
        rw [hnone b]
        refine ⟨fun hn => (by cases hn), ?_⟩
        rintro ⟨as, l, bs, rfl, ⟨-, i, -, hi, hid, -⟩, -⟩
        have hgone := h.gone l (by simp) i hi hid
        cases ho : v.system.jobs[k]? with
        | none =>
          rw [hsince.absent ho hgone.1] at hj
          cases hj
        | some o => exact absurd (hgone.2 o ho) (hnot o ho)

/-- To fill one slot leaves the other. -/
theorem slot_fillSlot (j : Job) (b c : Bool) (p : PortId) :
    (j.fillSlot b p).slot c = if b = c then some p else j.slot c := by
  cases b <;> cases c <;> rfl

/-- A binding at a dead job is what this is about: it is made, and the slot holds the port until it
is reset.  At other jobs, or if it is refused, nothing changes. -/
theorem DeadSlots.bind {v : World} {es : List (System × System)} (h : DeadSlots k ls v.system)
    (c : Koid) (r : PortId) :
    DeadSlots k (ls ++ [⟨v, .bindPort c r, es⟩]) (v.system.bindPort c r).2 := by
  obtain ⟨e, he⟩ | ⟨i, q, b₀, hi, hq, hkind, hfree, he⟩ := v.system.bindPort_cases c r
  · -- nothing is bound
    rw [he]
    refine ⟨h.known, fun l hl i hi hd => ?_, fun j hj hd b p => ?_⟩
    · rcases List.mem_append.1 hl with hl | hl
      · exact h.gone l hl i hi hd
      · rw [List.mem_singleton.1 hl] at hi
        exact .of_dead hi hd (h.known i hi)
    · rw [bound_concat, h.slots j hj hd b p, or_iff_right]
      · exact (and_iff_left id).symm
      · rintro ⟨hop, i, q, hi, -, hslot, hq, hkind⟩
        cases hop
        have hok := v.system.bindPort_of_slot hi hq hkind hslot
        rw [he] at hok
        cases hok
  · rw [he]
    dsimp only
    -- The one slot that is filled is that of `c`; the state of no job changes.
    have hget : ∀ j : Job, (v.system.modifyJob c (Job.fillSlot b₀ r)).jobs[k]? = some j →
        ∃ o : Job, v.system.jobs[k]? = some o ∧ o.state = j.state ∧
          j = if c = k then o.fillSlot b₀ r else o := by
      intro j hj
      have hj : (v.system.jobs.modify c (Job.fillSlot b₀ r))[k]? = some j := hj
      rw [Store.getElem?_modify] at hj
      split at hj
      · rename_i hc
        obtain ⟨o, ho, rfl⟩ := Option.map_eq_some_iff.1 hj
        exact ⟨o, ho, by cases b₀ <;> rfl, (if_pos hc).symm⟩
      · rename_i hc
        exact ⟨j, hj, rfl, (if_neg hc).symm⟩
    have hgone : Gone k v.system → Gone k (v.system.modifyJob c (Job.fillSlot b₀ r)) := by
      refine fun hg => ⟨hg.1, fun j hj => ?_⟩
      obtain ⟨o, ho, hstate, -⟩ := hget j hj
      exact hstate ▸ hg.2 o ho
    refine ⟨fun j hj => ?_, fun l hl i hi hd => hgone ?_, fun j hj hd b p => ?_⟩
    · obtain ⟨o, ho, -⟩ := hget j hj
      exact h.known o ho
    · rcases List.mem_append.1 hl with hl | hl
      · exact h.gone l hl i hi hd
      · rw [List.mem_singleton.1 hl] at hi
        exact .of_dead hi hd (h.known i hi)
    · obtain ⟨o, ho, hstate, rfl⟩ := hget j hj
      have hod : o.state = .dead := hstate.trans hd
      have hbound := h.slots o ho hod b p
      rw [bound_concat, and_iff_left (show ¬ Op.Resets k b (.bindPort c r) from id), ← hbound]
      by_cases hc : c = k
      · subst hc
        rw [hi] at ho
        cases ho
        rw [if_pos rfl, slot_fillSlot]
        by_cases hb : b₀ = b
        · subst hb
          rw [if_pos rfl, hfree, or_iff_left (by simp)]
          constructor
          · intro hp
            cases hp
            exact ⟨rfl, i, q, hi, hod, hfree, hq, hkind⟩
          · rintro ⟨hop, -⟩
            cases hop
            rfl
        · rw [if_neg hb, or_iff_right]
          rintro ⟨hop, -, q', -, -, -, hq', hkind'⟩
          cases hop
          have hq' : v.system.ports[r]? = some q' := hq'
          rw [hq] at hq'
          cases hq'
          rw [hkind] at hkind'
          exact hb (Option.some.inj hkind')
      · rw [if_neg hc, or_iff_right]
        rintro ⟨hop, -⟩
        cases hop
        exact hc rfl

/-- **The slots of a dead job along a run**: induction on its legs. -/
theorem Journey.deadSlots (h : Journey P {} ls w) (k : Koid) : DeadSlots k ls w.system := by
  refine h.keeps_legs (I := fun ls s => DeadSlots k ls s) ⟨?_, ?_, ?_⟩
    fun {ls v op es} hi _ hes => ?_
  · exact fun j hj => by simp [System.initial] at hj
  · exact fun l hl => by cases hl
  · exact fun j hj => by simp [System.initial] at hj
  · cases op with
    | bindPort c r => exact hi.bind c r
    | resetPort refuses c d =>
      refine hi.rest hes id fun b hb => ?_
      obtain ⟨rfl, rfl⟩ := hb
      exact v.system.resetPort_slotEmpty refuses c d
    | _ => exact hi.rest hes id fun _ hb => hb.elim

/-- **A dead job holds just the ports that were bound to it while it was dead.**  Whatever order of
binds, resets, kills and departures has led to a state, a slot of a dead job holds a port if and
only if the port was put there when the job was dead already, and the slot was not reset after
that.  So the slots are empty, and no debugger shows in what is told of the job, just as long as
nobody binds a port to a dead job. -/
theorem Ran.dead_slots (h : w.Ran P) :
    (∃ ls, Journey P {} ls w) ∧ ∀ ls, Journey P {} ls w → ∀ k j, w.system.jobs[k]? = some j →
      j.state = .dead → (∀ b p, j.slot b = some p ↔ Bound ls k b p) ∧
        ((w.system.jobInfo k).map JobInfo.debuggerAttached = some true ↔
          ∃ p, Bound ls k true p) := by
  refine ⟨h.journey, fun ls hls k j hj hd => ?_⟩
  have hslots := (hls.deadSlots k).slots j hj hd
  refine ⟨hslots, ?_⟩
  unfold System.jobInfo
  rw [hj, Option.map_some, Option.map_some, Option.some_inj]
  show j.debuggerPort.isSome = true ↔ _
  rw [Option.isSome_iff_exists]
  exact exists_congr fun p => hslots true p

/-- A job is killed, two ports are bound to it after that, and one of them is taken out again. -/
def hauntedOps : List Op :=
  [.createRootJob false, .openPort .job 5, .openPort .debugger 6, .bindPort 1024 1,
    .killJob .generous 7 1024, .bindPort 1024 1, .bindPort 1024 2, .resetPort .generous 1024 false]

/-- The port that was there when the job died is gone from its slot, and so is the one that was
reset.  The debugger is attached. -/
theorem Ran.dead_slots_of_haunted :
    let w := run hauntedOps
    (∃ j, w.system.jobs[1024]? = some j ∧ j.state = .dead ∧ j.slot false = none ∧
      j.slot true = some 2) ∧
    ((∃ ls, Journey (fun _ _ => True) {} ls w) ∧ ∀ ls, Journey (fun _ _ => True) {} ls w →
      ∀ k j, w.system.jobs[k]? = some j → j.state = .dead →
        (∀ b p, j.slot b = some p ↔ Bound ls k b p) ∧
          ((w.system.jobInfo k).map JobInfo.debuggerAttached = some true ↔
            ∃ p, Bound ls k true p)) ∧
    (w.system.jobInfo 1024).map JobInfo.debuggerAttached = some true := by
  have hran : (run hauntedOps).Ran fun _ _ => True := Ran.start.foldl (keep_any _ _)
  exact ⟨⟨_, by cbv, by cbv, by cbv, by cbv⟩, hran.dead_slots, by cbv⟩

/-- A root without children is killed and a debugger is attached to it after that. -/
theorem debugger_at_dead_job :
    let w := run [.createRootJob false, .openPort .debugger 6, .killJob .generous 7 1024]
    let u := w.act (.bindPort 1024 1)
    (w.system.jobs[1024]?.map Job.state = some .dead) ∧
      (w.system.bindPort 1024 1).1 = .ok () ∧
      ¬ ∀ j, u.system.jobs[1024]? = some j → j.state = .dead →
        j.port = none ∧ j.debuggerPort = none := by
  refine ⟨by cbv, by cbv, fun h => ?_⟩
  have hslot := (h _ (by cbv) (by cbv)).2
  cbv at hslot
  cases hslot

end World

end KernelObjects
