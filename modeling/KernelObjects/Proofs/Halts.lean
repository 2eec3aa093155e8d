import KernelObjects.Proofs.Ledger
import KernelObjects.Proofs.Lifecycle

/-
# A root job halts the system once

A root job asks for a halt when a child is taken off its lists and none is left.  It may gain and
lose children again after that, and it may be killed at any time, but its handler is called once
and for all.

The journey of a run shows every moment at which a root with a handler goes from some children to
none (`System.empties`).  After any part of the journey the handler was called once if there was
such a moment, and otherwise not at all (`Latched`, `World.Ran.halts_once`).  The flag in the
record of the job tells the two apart, and it is kept by all that happens; koids are not used
twice, so the job that comes with a koid finds neither calls nor such moments.

Calls are counted in the trace and moments along the journey, so neither is read off the flag
whose use is in question.  The invariant ties the three together: the flag is up exactly if there
was a moment, and then there was one call.

A call comes when everything shows that the last child is gone, the signals of the job included,
and also its death, if it was to die (`HaltsAt`).  So a handler that looks at the job finds it in
the state that it is told of.
-/

namespace KernelObjects

/-! ## 1. Calls, and what they should follow

Calls are counted in the trace.  What they should follow is a question about two states, before
and after something happened, with nothing in it of flags or handlers. -/

namespace System

/-- How often the handler of a root job was called. -/
def haltCalls (s : System) (k : Koid) : Nat := (s.trace.filterMap Event.halted?).count k

/-- Whether a root job with a handler had children before something happened, and has none after. -/
def empties (k : Koid) (e : System × System) : Bool :=
  match e.1.jobs[k]?, e.2.jobs[k]? with
  | some j, some i =>
    j.parent.isNone && j.hasHaltHandler && !(j.processes.isEmpty && j.jobs.isEmpty) &&
      (i.processes.isEmpty && i.jobs.isEmpty)
  | _, _ => false

/-- A job and its signals show that the last child is gone, and that the job is dead if it was to
die. -/
structure ShownEmpty (k : Koid) (before : JobState) (m : System) : Prop where
  record : ∃ i : Job, m.jobs[k]? = some i ∧ i.jobs = [] ∧ i.processes = [] ∧ i.halted = true ∧
    i.state = (if before = .killing then .dead else before)
  noJobs : Signals.noJobs ⊆ m.signals k
  noProcesses : Signals.noProcesses ⊆ m.signals k
  terminated : before = .killing → Signals.taskTerminated ⊆ m.signals k

/-- A listed child is taken off the lists of a job, and the handler is called after everything shows
that. -/
structure HaltsAt (k : Koid) (s t : System) : Prop where
  removed : ∃ (j : Job) (c : Koid), s.jobs[k]? = some j ∧
    (c ∈ j.jobs ∧ t = s.detachJob k c ∨ c ∈ j.processes ∧ t = s.detachProcess k c)
  called : ∃ (j : Job) (m : System), s.jobs[k]? = some j ∧ ShownEmpty k j.state m ∧
    t = m.log (.halted k m.liveJobs)

/-! ## 2. The call itself

The moment of the call, looked at inside the one function that makes it: what was written before,
and what the handler can see. -/

variable {s t : System} {k : Koid} {j : Job}

theorem objects_unbindSlot (s : System) (slot : Option PortId) :
    (s.unbindSlot slot).objects = s.objects := by
  cases slot <;> rfl

theorem objects_markDead (hj : s.jobs[k]? = some j) : (s.markDead k).objects =
    s.objects.modify k fun o => { o with signals := o.signals.update .empty .taskTerminated } := by
  unfold markDead
  rw [hj]
  show ((((s.modifyJob k dead).unbindSlot j.port).unbindSlot j.debuggerPort).objects.modify k _) = _
  rw [objects_unbindSlot, objects_unbindSlot]
  rfl

/-- The last child of a root leaves it for the first time. -/
theorem childLeft_calls (hs : s.Shelved) (hj : s.jobs[k]? = some j) (hjobs : j.jobs = [])
    (hprocesses : j.processes = []) (hroot : j.parent = none) (hcalls : j.hasHaltHandler = true)
    (hfirst : j.halted = false) :
    ∃ m : System, ShownEmpty k j.state m ∧ s.childLeft k = m.log (.halted k m.liveJobs) := by
  obtain ⟨o, ho⟩ := Store.contains_iff.1 (hs k (Store.contains_iff.2 ⟨j, hj⟩))
  -- the job dies first, if it is to
  have hdies : ∃ (u : System) (i : Job) (x : Object),
      (if j.state = .killing then s.markDead k else s) = u ∧ u.jobs[k]? = some i ∧
      u.objects[k]? = some x ∧ i.jobs = [] ∧ i.processes = [] ∧ i.hasHaltHandler = true ∧
      i.state = (if j.state = .killing then .dead else j.state) ∧
      (j.state = .killing → Signals.taskTerminated ⊆ x.signals) := by
    by_cases hk : j.state = .killing
    · refine ⟨s.markDead k, dead j, { o with signals := o.signals.update .empty .taskTerminated },
        if_pos hk, ?_, ?_, hjobs, hprocesses, hcalls, (if_pos hk).symm,
        fun _ => Signals.subset_update _ _ _⟩
      · rw [jobs_markDead hj, Store.getElem?_modify, if_pos rfl, hj, Option.map_some]
      · rw [objects_markDead hj, Store.getElem?_modify, if_pos rfl, ho, Option.map_some]
    · exact ⟨s, j, o, if_neg hk, hj, ho, hjobs, hprocesses, hcalls, (if_neg hk).symm,
        fun h => absurd h hk⟩
  obtain ⟨u, i, x, he, hi, hx, hij, hip, hih, his, hterminated⟩ := hdies
  set m := (u.modifyJob k fun j => { j with halted := true }).signal k .empty (departureSignals j)
  have hmi : m.jobs[k]? = some { i with halted := true } := by
    show (u.jobs.modify k _)[k]? = _
    rw [Store.getElem?_modify, if_pos rfl, hi, Option.map_some]
  have hmx : m.signals k = x.signals.update .empty (departureSignals j) := by
    show ((u.objects.modify k _)[k]?.map Object.signals).getD .empty = _
    rw [Store.getElem?_modify, if_pos rfl, hx, Option.map_some]
    rfl
  have hdeparture : departureSignals j = Signals.noProcesses ∪ Signals.noJobs := by
    unfold departureSignals
    rw [hjobs, hprocesses]
    rfl
  have hshown : ShownEmpty k j.state m := by
    refine ⟨⟨_, hmi, hij, hip, rfl, his⟩, ?_, ?_, fun hk => ?_⟩
    · rw [hmx, Signals.isBit_noJobs.subset_update_iff, hdeparture]
      exact .inr (by decide)
    · rw [hmx, Signals.isBit_noProcesses.subset_update_iff, hdeparture]
      exact .inr (by decide)
    · rw [hmx, Signals.isBit_taskTerminated.subset_update_iff]
      exact .inl ⟨hterminated hk, by decide⟩
  refine ⟨m, hshown, ?_⟩
  unfold childLeft
  rw [hj]
  dsimp only
  rw [show (j.processes.isEmpty && j.jobs.isEmpty) = true by rw [hjobs, hprocesses]; rfl, hroot,
    hfirst]
  simp only [Option.isNone_none, Bool.not_false, Bool.true_and, decide_eq_true_eq, if_true]
  rw [he]
  show m.halt k = _
  unfold halt
  rw [hmi]
  exact if_pos hih

end System

/-! ## 3. The flag

The shifts are gone through once more, with the loss of a child apart from the others: only there
a list of children gets shorter. -/

/-- What all that happens, other than the loss of a child, leaves to a job. -/
structure Job.Post.Kept (p q : Job.Post) : Prop where
  parent : q.parent = p.parent
  hasHaltHandler : q.hasHaltHandler = p.hasHaltHandler
  halted : q.halted = p.halted
  vacant : p.vacant = false → q.vacant = false

theorem Job.Post.Kept.refl (p : Job.Post) : p.Kept p := ⟨rfl, rfl, rfl, id⟩

namespace Ledger

variable {op : Op} {l l' : Ledger} {k c : Koid} {n : Nat}

/-- What becomes of the job of a koid. -/
inductive Fate (k : Koid) (l l' : Ledger) : Prop
  | absent (h : l'.jobs[k]? = none)
  | born {q : Job.Post} (hk : k < l'.nextKoid) (hn : l.nextKoid ≤ k) (hq : l'.jobs[k]? = some q)
      (h : q.Newborn)
  | kept {p q : Job.Post} (hp : l.jobs[k]? = some p) (hq : l'.jobs[k]? = some q) (h : p.Kept q)

theorem Fate.of_same (h : l'.jobs[k]? = l.jobs[k]?) : Fate k l l' := by
  cases hp : l.jobs[k]? with
  | none => exact .absent (h.trans hp)
  | some p => exact .kept hp (h.trans hp) (.refl p)

theorem Fate.of_insert {p q : Job.Post} (hp : l.jobs[c]? = some p)
    (h : l'.jobs = l.jobs.insert c q) (hk : p.Kept q) : Fate k l l' := by
  have hget : l'.jobs[k]? = if c = k then some q else l.jobs[k]? := by
    rw [h, Store.getElem?_insert]
  by_cases hc : c = k
  · exact .kept (hc ▸ hp) (hget.trans (if_pos hc)) hk
  · exact .of_same (hget.trans (if_neg hc))

/-- Each change does one of the three things to a job. -/
theorem Change.fate (h : Change op l l') (k : Koid) : Fate k l l' := by
  cases h with
  | @born j hn hj =>
    have hget : (l.jobs.insert l.nextKoid j)[k]? =
        if l.nextKoid = k then some j else l.jobs[k]? := by rw [Store.getElem?_insert]
    by_cases hk : l.nextKoid = k
    · exact .born (hk ▸ Nat.lt_succ_self _) (Nat.le_of_eq hk) (hget.trans (if_pos hk)) hj
    · exact .of_same (hget.trans (if_neg hk))
  | @gone c j hj =>
    have hget : (l.jobs.erase c)[k]? = if c = k then none else l.jobs[k]? := by
      rw [Store.getElem?_erase]
    by_cases hk : c = k
    · exact .absent (hget.trans (if_pos hk))
    · exact .of_same (hget.trans (if_neg hk))
  | @listed c j js ps hj hr hne =>
    refine .of_insert hj rfl ⟨rfl, rfl, rfl, fun _ => ?_⟩
    refine Bool.eq_false_iff.2 fun hv => hne ?_
    obtain ⟨hp, hc⟩ := Bool.and_eq_true_iff.1 hv
    exact ⟨List.isEmpty_iff.1 hc, List.isEmpty_iff.1 hp⟩
  | condemned hj hr hv => exact .of_insert hj rfl ⟨rfl, rfl, rfl, id⟩
  | buried hj hr hv => exact .of_insert hj rfl ⟨rfl, rfl, rfl, id⟩
  | unbound hop hj hp => exact .of_insert hj rfl ⟨rfl, rfl, rfl, id⟩
  | bound hop hj hs => exact .of_insert hj rfl ⟨rfl, rfl, rfl, id⟩
  | _ => exact .of_same rfl

/-- No change but the loss of a child calls a handler. -/
theorem Change.halts_eq (h : Change op l l') : l'.halts = l.halts := by
  cases h <;> rfl

/-- Whether a root job with a handler had children before something happened and has none after
it. -/
def empties (k : Koid) (l l' : Ledger) : Bool :=
  match l.jobs[k]?, l'.jobs[k]? with
  | some p, some q => p.parent.isNone && p.hasHaltHandler && !p.vacant && q.vacant
  | _, _ => false

theorem empties_of_some {p q : Job.Post} (hp : l.jobs[k]? = some p) (hq : l'.jobs[k]? = some q) :
    empties k l l' = (p.parent.isNone && p.hasHaltHandler && !p.vacant && q.vacant) := by
  unfold empties
  rw [hp, hq]

theorem empties_of_none (h : l.jobs[k]? = none ∨ l'.jobs[k]? = none) : empties k l l' = false := by
  unfold empties
  rcases h with h | h
  · rw [h]
  · rw [h]
    cases l.jobs[k]? <;> rfl

theorem empties_of_same (h : l'.jobs[k]? = l.jobs[k]?) : empties k l l' = false := by
  unfold empties
  rw [h]
  cases l.jobs[k]? with
  | none => rfl
  | some o => cases hov : o.vacant <;> simp [hov]

/-- The handler of a job was called once if the job, as a root, ran out of children at least once,
and the flag in its record says so. -/
structure Latched (k : Koid) (n : Nat) (l : Ledger) : Prop where
  calls : l.halts.count k = min 1 n
  unborn : l.nextKoid ≤ k → l.jobs[k]? = none ∧ n = 0
  flag : ∀ {j : Job.Post}, l.jobs[k]? = some j →
    if j.parent.isNone && j.hasHaltHandler then j.halted = true ↔ n ≠ 0 else n = 0

theorem latched_initial (k : Koid) : Latched k 0 System.initial.ledger where
  calls := rfl
  unborn _ := ⟨by rw [System.ledger_initial]; simp, rfl⟩
  flag h := by
    rw [System.ledger_initial] at h
    simp at h

/-- **Whatever happens besides the loss of a child empties no job and calls nobody.** -/
theorem Latched.change (h : Latched k n l) (hc : Change op l l') :
    empties k l l' = false ∧ Latched k n l' := by
  have hcalls : l'.halts.count k = min 1 n := hc.halts_eq ▸ h.calls
  have hlow : l'.nextKoid ≤ k → l.nextKoid ≤ k := fun hk => Nat.le_trans hc.nextKoid_le hk
  -- The job is not there, has just come, or was there before.  A job that has just come lists
  -- nobody, so it has not lost anybody, and a job that was there keeps what the latch depends on.
  cases hc.fate k with
  | absent hn =>
    refine ⟨empties_of_none (.inr hn), hcalls, fun hk => ⟨hn, (h.unborn (hlow hk)).2⟩, ?_⟩
    intro j hj
    rw [hn] at hj
    cases hj
  | @born q hk hn hq hq' =>
    obtain ⟨hnone, rfl⟩ := h.unborn hn
    refine ⟨empties_of_none (.inl hnone), hcalls, fun hk' => absurd hk (Nat.not_lt.2 hk'), ?_⟩
    intro j hj
    rw [hq] at hj
    cases hj
    split
    · rw [hq'.halted]
      simp
    · rfl
  | @kept p q hp hq hkept =>
    refine ⟨?_, hcalls, fun hk => ?_, ?_⟩
    · rw [empties_of_some hp hq]
      cases hv : p.vacant with
      | true => simp
      | false => simp [hkept.vacant hv]
    · rw [(h.unborn (hlow hk)).1] at hp
      cases hp
    · intro j hj
      rw [hq] at hj
      cases hj
      rw [hkept.parent, hkept.hasHaltHandler, hkept.halted]
      exact h.flag hp

/-- What happens elsewhere. -/
theorem Latched.elsewhere (h : Latched k n l) (hj : l'.jobs[k]? = l.jobs[k]?)
    (hn : l'.nextKoid = l.nextKoid) (hc : l'.halts.count k = l.halts.count k) : Latched k n l' where
  calls := hc.trans h.calls
  unborn hk := hj ▸ h.unborn (hn ▸ hk)
  flag hp := h.flag (hj ▸ hp)

/-- A call that is made while the flag is down is the only one. -/
theorem latch_calls {root vacant flag : Bool}
    (h : if root then flag = true ↔ n ≠ 0 else n = 0) :
    min 1 n + (if root && vacant && !flag then 1 else 0) =
      min 1 (n + if root && vacant then 1 else 0) := by
  cases root <;> cases vacant <;> cases flag <;> simp at h ⊢ <;> omega

/-- The flag goes up when there are no children left, and stays up. -/
theorem latch_flag {root vacant flag flag' : Bool}
    (h : if root then flag = true ↔ n ≠ 0 else n = 0)
    (hflag : root = true → flag' = (flag || vacant)) :
    if root then flag' = true ↔ n + (if root && vacant then 1 else 0) ≠ 0
    else n + (if root && vacant then 1 else 0) = 0 := by
  cases root with
  | false => exact h
  | true =>
    rw [hflag rfl]
    cases vacant with
    | false => simpa using h
    | true => simp

/-- **The loss of the last child calls the handler of a root for the first time only.** -/
theorem Latched.leave {p : Job.Post} {js ps : List Koid} (h : Latched k n l)
    (hp : l.jobs[c]? = some p) (hv : p.vacant = false)
    (he : l' = l.leave c { p with jobs := js, processes := ps }) :
    Latched k (n + if empties k l l' then 1 else 0) l' := by
  set q : Job.Post := { p with jobs := js, processes := ps }
  have hget : l'.jobs[k]? = if c = k then some q.bereft else l.jobs[k]? := by
    rw [he]
    exact Store.getElem?_insert _ _ _ _
  have hnext : l'.nextKoid = l.nextKoid := by
    rw [he]
    rfl
  have hhalts : l'.halts =
      if q.closes && !q.halted && q.hasHaltHandler then c :: l.halts else l.halts := by
    rw [he]
    rfl
  -- the job that lost a child may call its handler; to all others nothing happens
  by_cases hk : c = k
  · subst hk
    rw [if_pos rfl] at hget
    set root := p.parent.isNone && p.hasHaltHandler
    have hempties : empties c l l' = (root && q.vacant) := by
      rw [empties_of_some hp hget, hv, q.vacant_bereft, Bool.not_false, Bool.and_true]
    rw [hempties]
    refine ⟨?_, fun hc => ?_, fun {j} hj => ?_⟩
    · have hcalled : (q.closes && !q.halted && q.hasHaltHandler) =
          (root && q.vacant && !p.halted) := by
        show (q.vacant && p.parent.isNone && !p.halted && p.hasHaltHandler) =
          (p.parent.isNone && p.hasHaltHandler && q.vacant && !p.halted)
        ac_rfl
      have hcount : l'.halts.count c =
          l.halts.count c + if root && q.vacant && !p.halted then 1 else 0 := by
        rw [hhalts, hcalled]
        split
        · exact List.count_cons_self
        · rfl
      rw [hcount, h.calls, latch_calls (h.flag hp)]
    · rw [(h.unborn (hnext ▸ hc)).1] at hp
      cases hp
    · rw [hget] at hj
      cases hj
      rw [q.parent_bereft, q.hasHaltHandler_bereft]
      have hflag := h.flag hp
      refine latch_flag hflag fun hr => ?_
      show (p.halted || (q.vacant && p.parent.isNone)) = (p.halted || q.vacant)
      rw [(Bool.and_eq_true_iff.1 hr).1, Bool.and_true]
  · rw [if_neg hk] at hget
    rw [empties_of_same hget]
    refine h.elsewhere hget hnext ?_
    rw [hhalts]
    split
    · exact List.count_cons_of_ne hk
    · rfl

end Ledger

/-! ## 4. Runs

The latch is kept by shifts, so it is kept along a journey, and at its end it says how often the
handler was called. -/

namespace System

variable {op : Op} {s t : System} {k : Koid} {j : Job} {n : Nat}

theorem empties_eq (k : Koid) (s t : System) :
    empties k (s, t) = Ledger.empties k s.ledger t.ledger := by
  unfold empties Ledger.empties
  rw [jobs_ledger, jobs_ledger]
  cases s.jobs[k]? with
  | none => rfl
  | some j => cases t.jobs[k]? <;> rfl

/-- The call that comes of the loss of a child. -/
theorem called_of_empties {f : Job → Job} (hs : s.Shelved) (hj : s.jobs[k]? = some j)
    (hfirst : j.halted = false) (hparent : (f j).parent = j.parent)
    (hhandler : (f j).hasHaltHandler = j.hasHaltHandler) (hhalted : (f j).halted = j.halted)
    (hstate : (f j).state = j.state)
    (he : empties k (s, (s.modifyJob k f).childLeft k) = true) :
    ∃ m : System, ShownEmpty k j.state m ∧
      (s.modifyJob k f).childLeft k = m.log (.halted k m.liveJobs) := by
  have hget : (s.modifyJob k f).jobs[k]? = some (f j) := by
    show (s.jobs.modify k f)[k]? = _
    rw [Store.getElem?_modify, if_pos rfl, hj, Option.map_some]
  have hleft : ((s.modifyJob k f).childLeft k).ledger.jobs[k]? = some (f j).post.bereft := by
    rw [ledger_childLeft_of hj f]
    exact Std.ExtTreeMap.getElem?_insert_self
  have hvacant : (f j).post.bereft.vacant = ((f j).processes.isEmpty && (f j).jobs.isEmpty) :=
    (f j).post.vacant_bereft
  rw [empties_eq, Ledger.empties_of_some (job_ledger hj) hleft, hvacant] at he
  simp only [Bool.and_eq_true, List.isEmpty_iff] at he
  obtain ⟨⟨⟨hroot, hcalls⟩, -⟩, hprocesses, hjobs⟩ := he
  rw [← hstate]
  exact childLeft_calls (hs.modifyJob k f) hget hjobs hprocesses
    (hparent.trans (Option.isNone_iff_eq_none.1 hroot)) (hhandler.trans hcalls)
    (hhalted.trans hfirst)

/-- **What a shift does to the calls of a handler.** -/
theorem Shift.latched (h : Shift op s t) (hs : s.Shelved) (hl : Ledger.Latched k n s.ledger) :
    Ledger.Latched k (n + if empties k (s, t) then 1 else 0) t.ledger ∧
      (empties k (s, t) = true → n = 0 → HaltsAt k s t) := by
  cases h with
  | change hc =>
    obtain ⟨hquiet, hl'⟩ := hl.change hc
    rw [empties_eq, hquiet]
    exact ⟨hl', fun h => absurd h Bool.false_ne_true⟩
  | @left c x j js ps hj hv ht he =>
    have hl' := hl.leave (job_ledger hj) hv he
    rw [← empties_eq] at hl'
    refine ⟨hl', fun hempties hn => ?_⟩
    have hk : c = k := by
      by_contra hk
      rw [empties_eq, Ledger.empties_of_same] at hempties
      · cases hempties
      · rw [he]
        exact (Store.getElem?_insert _ _ _ _).trans (if_neg hk)
    subst hk
    -- The latch of the job says how often its handler was called.  No call was made before, so
    -- the latch is open and this one goes through.
    have hfirst : j.halted = false := by
      have hflag := hl.flag (job_ledger hj)
      rw [hn] at hflag
      have hroot : (j.post.parent.isNone && j.post.hasHaltHandler) = true := by
        obtain ⟨q, hq⟩ : ∃ q, t.ledger.jobs[c]? = some q := by
          rw [he]
          exact ⟨_, Std.ExtTreeMap.getElem?_insert_self⟩
        rw [empties_eq, Ledger.empties_of_some (job_ledger hj) hq, Bool.and_eq_true,
          Bool.and_eq_true] at hempties
        exact hempties.1.1
      rw [if_pos hroot] at hflag
      exact Bool.eq_false_iff.2 fun ht => hflag.1 ht rfl
    refine ⟨⟨j, x, hj, ht⟩, ?_⟩
    rcases ht with ⟨hx, rfl⟩ | ⟨hx, rfl⟩
    · rw [detachJob_of_mem hj hx] at hempties ⊢
      obtain ⟨m, hshown, hm⟩ := called_of_empties hs hj hfirst rfl rfl rfl rfl hempties
      exact ⟨j, m, hj, hshown, hm⟩
    · rw [detachProcess_of_mem hj hx] at hempties ⊢
      obtain ⟨m, hshown, hm⟩ := called_of_empties hs hj hfirst rfl rfl rfl rfl hempties
      exact ⟨j, m, hj, hshown, hm⟩

/-- After any part of a list of what happened, the handler of a job was called once if the job, as a
root, had run out of children, and else not at all.  The call comes with the first time. -/
def HaltsOnce (k : Koid) (es : List (System × System)) : Prop :=
  ∀ as e bs, es = as ++ e :: bs →
    e.1.haltCalls k = min 1 (as.countP (empties k)) ∧
    e.2.haltCalls k = min 1 ((as ++ [e]).countP (empties k)) ∧
    (empties k e = true → as.countP (empties k) = 0 → HaltsAt k e.1 e.2)

theorem HaltsOnce.concat {es : List (System × System)} {e : System × System} (h : HaltsOnce k es)
    (hbefore : e.1.haltCalls k = min 1 (es.countP (empties k)))
    (hafter : e.2.haltCalls k = min 1 ((es ++ [e]).countP (empties k)))
    (hhalts : empties k e = true → es.countP (empties k) = 0 → HaltsAt k e.1 e.2) :
    HaltsOnce k (es ++ [e]) := by
  intro as x bs hsplit
  rcases World.split_concat hsplit with ⟨rfl, rfl, -⟩ | ⟨cs, -, rfl⟩
  · exact ⟨hbefore, hafter, hhalts⟩
  · exact h as x cs rfl

end System

namespace World

open KernelObjects.System (haltCalls empties HaltsOnce)

variable {P : System → Op → Prop} {w : World} {ls : List Leg}

/-- **Along a journey the calls follow the moments**, one call in all from the first moment on. -/
theorem Journey.halts (h : Journey P {} ls w) (k : Koid) :
    w.system.haltCalls k = min 1 ((along ls).countP (empties k)) ∧ HaltsOnce k (along ls) := by
  have hkeeps := h.keeps (I := fun es s =>
    Ledger.Latched k (es.countP (empties k)) s.ledger ∧ HaltsOnce k es)
    ⟨Ledger.latched_initial k, fun as e bs he => by simp at he⟩
    fun {op es a b} hi hshelf hshift => by
      obtain ⟨hl, honce⟩ := hi
      obtain ⟨hl', hhalts⟩ := hshift.latched hshelf hl
      rw [← List.countP_singleton, ← List.countP_append] at hl'
      exact ⟨hl', honce.concat hl.calls hl'.calls hhalts⟩
  exact ⟨hkeeps.1.calls, hkeeps.2⟩

/-- **The handler of a root job is called exactly once if the root ever runs out of children, and
never if it does not.**  In any journey that leads to a state, the number of calls so far is at all
times the number of times that the root has run out of children, or one if that is more.  The call
comes as the last child is taken off its lists for the first time, after everything shows that it is
gone. -/
theorem Ran.halts_once (h : w.Ran P) :
    (∃ ls, Journey P {} ls w) ∧ ∀ ls, Journey P {} ls w → ∀ k,
      w.system.haltCalls k = min 1 ((along ls).countP (empties k)) ∧ HaltsOnce k (along ls) :=
  ⟨h.journey, fun _ hls k => hls.halts k⟩

/-- A process of a root is killed, and another one is listed and taken off by hand, twice. -/
def emptyingOps : List Op :=
  [.createRootJob true, .createProcess 1024 (Name.ofString "p"), .killProcess 7 1025,
    .createProcess 1024 (Name.ofString "q"), .detachProcess 1024 1026, .detachProcess 1024 1026]

/-- The handler is called when the first process is killed, and not again. -/
theorem Ran.halts_once_of_emptying :
    let w := run emptyingOps
    ((∃ ls, Journey (fun _ _ => True) {} ls w) ∧ ∀ ls, Journey (fun _ _ => True) {} ls w → ∀ k,
      w.system.haltCalls k = min 1 ((along ls).countP (empties k)) ∧ HaltsOnce k (along ls)) ∧
    (run (emptyingOps.take 2)).system.haltCalls 1024 = 0 ∧
    (run (emptyingOps.take 3)).system.haltCalls 1024 = 1 ∧ w.system.haltCalls 1024 = 1 ∧
    w.system.trace.filterMap Event.halted? = [1024] := by
  have hran : (run emptyingOps).Ran fun _ _ => True := Ran.start.foldl (keep_any _ _)
  exact ⟨hran.halts_once, by cbv, by cbv, by cbv, by cbv⟩

end World

end KernelObjects
