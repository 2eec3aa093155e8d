import KernelObjects.Proofs.Ledger

/-
# What becomes of the bindings of a port

A port that is bound stands in a slot of a job, and it is told when it leaves the slot: when the
slot is emptied on purpose and when the job dies.  A job whose last reference goes before it is
dead goes with its slots, and the ports in them are not told.

So the bindings of a port are accounted for by the times that it was told, by the slots that hold
it and by the slots that went with their jobs (`World.Ran.bindings_accounted`).  A port counts how
often it was told in a word of 32 bits, and those who tell it by hand are counted there as well.

The account is an equation between four numbers, and each shift moves two of them by the same
amount: a binding is made and stands in a slot, it leaves the slot and the port is told, it leaves
the slot with its job and is lost.  To show it nothing has to be known of when jobs die; it is
enough that a shift which takes a port out of a slot does one of the two.

A port may stand in both slots of a job, and is told twice then.  The two slots are therefore
counted one by one.
-/

namespace KernelObjects

/-! ## 1. Counts

Slots are counted over all jobs that are there.  What is lost is counted by comparing two states:
a job that was there and is not takes its slots along. -/

/-- How many slots of a job hold a port. -/
def Job.holds (p : PortId) (j : Job) : Nat :=
  (if j.port = some p then 1 else 0) + (if j.debuggerPort = some p then 1 else 0)

namespace System

/-- How many slots of the jobs that are there hold a port. -/
def slotsHolding (s : System) (p : PortId) : Nat := s.jobs.weight fun _ j => j.holds p

/-- How many slots that held a port went with their jobs. -/
def slotsLost (p : PortId) (e : System × System) : Nat :=
  e.1.jobs.weight fun k j => if e.2.jobs.contains k then 0 else j.holds p

end System

namespace World.Leg

/-- Whether a port was bound. -/
def binds (p : PortId) (l : Leg) : Bool :=
  match l.op with
  | .bindPort k q => q == p && (l.start.system.bindPort k q).1.isOk
  | _ => false

/-- Whether a port that is there was told by hand. -/
def tells (p : PortId) (l : Leg) : Bool :=
  match l.op with
  | .unbindPort q => q == p && l.start.system.ports.contains q
  | _ => false

end World.Leg

/-- An operation that neither opens nor binds a port nor tells one by hand. -/
def Op.SparesPorts : Op → Prop
  | openPort .. | bindPort .. | unbindPort _ => False
  | _ => True

/-! ## 2. What shows of that in the ledger

The same counts, taken on the ledger, which is all that shifts speak of. -/

/-- In how many of its two slots a job holds a port. -/
def Job.Post.holds (p : PortId) (j : Job.Post) : Nat :=
  (if j.slot false = some p then 1 else 0) + (if j.slot true = some p then 1 else 0)

/-- One slot is written. -/
theorem Job.Post.holds_setSlot (p : PortId) (j : Job.Post) (b : Bool) (x : Option PortId) :
    (j.setSlot b x).holds p + (if j.slot b = some p then 1 else 0) =
      j.holds p + if x = some p then 1 else 0 := by
  cases b with
  | false =>
    show (if x = some p then 1 else 0) + (if j.slot true = some p then 1 else 0) + _ = _
    rw [Nat.add_comm, Nat.add_comm (if x = some p then 1 else 0), ← Nat.add_assoc]
    rfl
  | true =>
    show (if j.slot false = some p then 1 else 0) + (if x = some p then 1 else 0) + _ = _
    exact Nat.add_right_comm _ _ _

namespace Ledger

variable {op : Op} {l l' : Ledger} {k : Koid} {p : PortId} {j q : Job.Post}

/-- In how many slots of all jobs a port stands. -/
def held (p : PortId) (l : Ledger) : Nat := l.jobs.weight fun _ j => j.holds p

/-- How many of the slots that hold a port went with their jobs. -/
def lost (p : PortId) (l l' : Ledger) : Nat :=
  l.jobs.weight fun k j => if l'.jobs.contains k then 0 else j.holds p

/-- If one job's slots are rewritten, the total moves by what that job holds. -/
theorem held_setJob (hj : l.jobs[k]? = some j) (q : Job.Post) :
    held p (l.setJob k q) + j.holds p = held p l + q.holds p := by
  have hlaw := Store.weight_add_share (s := l.jobs.insert k q) (t := l.jobs)
    (f := fun _ j => Job.Post.holds p j) (g := fun _ j => Job.Post.holds p j) (k := k)
    fun _ ha => Store.share_insert_ne _ _ _ ha
  rw [Store.share_of_some hj, Store.share_of_some (v := q) Std.ExtTreeMap.getElem?_insert_self]
    at hlaw
  exact hlaw

/-- Jobs that are still there have lost nothing. -/
theorem lost_eq_zero (h : ∀ a : Nat, l.jobs.contains a → l'.jobs.contains a) : lost p l l' = 0 := by
  refine Store.weight_eq_zero fun a i hi => if_pos ?_
  exact h a (Store.contains_iff.2 ⟨i, hi⟩)

/-- A new job loses nothing, -/
theorem lost_of_insert (h : l'.jobs = l.jobs.insert k q) : lost p l l' = 0 :=
  lost_eq_zero fun a ha => by
    rw [h]
    exact (Store.contains_insert _ _ _ _).2 (.inr ha)

/-- nor do jobs that stay. -/
theorem lost_of_same (h : l'.jobs = l.jobs) : lost p l l' = 0 := lost_eq_zero fun _ ha => h ▸ ha

/-- A job that goes takes the bindings in its slots along. -/
theorem lost_of_erase (hj : l.jobs[k]? = some j) (h : l'.jobs = l.jobs.erase k) :
    lost p l l' = j.holds p := by
  have hlaw := Store.weight_add_share (s := l.jobs) (t := (∅ : Store Job.Post))
    (f := fun a j => if l'.jobs.contains a then 0 else j.holds p) (g := fun _ _ => 0) (k := k)
    fun a ha => by
      rw [Store.share_of_none (s := (∅ : Store Job.Post)) (by simp)]
      cases hi : l.jobs[a]? with
      | none => rw [Store.share_of_none hi]
      | some i =>
        rw [Store.share_of_some hi, if_pos]
        rw [h]
        exact (Store.contains_erase _ _ _).2 ⟨ha.symm, Store.contains_iff.2 ⟨i, hi⟩⟩
  have hgone : l'.jobs.contains k = false := by
    rw [Store.contains_eq_false_iff, h, Store.getElem?_erase, if_pos rfl]
  rw [Store.share_of_none (s := (∅ : Store Job.Post)) (by simp), Store.share_of_some hj, hgone,
    Store.weight_eq_zero (s := (∅ : Store Job.Post)) (by simp)] at hlaw
  simpa [lost] using hlaw

/-! ### Telling -/

/-- A port that was told so many times. -/
def told (n : Nat) (q : Port) : Port := Port.told^[n] q

/-- The counter of a port goes round at the end of its word; what it shows is the number of notices
modulo that. -/
theorem unbinds_told {n : Nat} {q : Port} (h : q.unbinds = n % UInt32.size) (m : Nat) :
    (told m q).unbinds = (n + m) % UInt32.size := by
  induction m with
  | zero => exact h
  | succ m ih =>
    rw [told, Function.iterate_succ_apply', ← told]
    show ((told m q).unbinds + 1) % UInt32.size = _
    rw [ih, Nat.mod_add_mod, Nat.add_assoc]

theorem map_told_zero (x : Option Port) : x.map (told 0) = x := by
  cases x <;> rfl

/-- The port in a slot is told once, and the others are not. -/
theorem getElem?_tellPort (ports : Store Port) (slot : Option PortId) (p : Nat) :
    (ports.tellPort slot)[p]? = ports[p]?.map (told (if slot = some p then 1 else 0)) := by
  cases slot with
  | none => exact (map_told_zero _).symm
  | some r =>
    show (ports.modify r Port.told)[p]? = _
    rw [Store.getElem?_modify]
    by_cases hr : r = p
    · rw [if_pos hr, if_pos (congrArg some hr)]
      rfl
    · rw [if_neg hr, if_neg fun h => hr (Option.some.inj h)]
      exact (map_told_zero _).symm

/-- Notices add up. -/
theorem told_told (m n : Nat) (q : Port) : told m (told n q) = told (n + m) q := by
  rw [told, told, told, ← Function.iterate_add_apply, Nat.add_comm]

/-- A port that stands in both slots of a job is told twice. -/
theorem getElem?_tellPorts (ports : Store Port) (j : Job.Post) (p : Nat) :
    (ports.tellPorts j)[p]? = ports[p]?.map (told (j.holds p)) := by
  rw [Store.tellPorts, getElem?_tellPort, getElem?_tellPort, Option.map_map]
  congr 1
  funext q
  exact told_told _ _ q

/-! ### One shift -/

/-- What a port loses in slots it was told, or the jobs of the slots are gone. -/
structure Settles (p : PortId) (l l' : Ledger) : Prop where
  nextId : l.nextId ≤ l'.nextId
  balance : ∃ n, l'.ports[p]? = l.ports[p]?.map (told n) ∧ n + held p l' + lost p l l' = held p l

/-- Where neither jobs nor ports move, the account is settled. -/
theorem Settles.of_same (hn : l.nextId ≤ l'.nextId) (hj : l'.jobs = l.jobs)
    (hp : l'.ports = l.ports) : Settles p l l' where
  nextId := hn
  balance := by
    refine ⟨0, hp ▸ (map_told_zero _).symm, ?_⟩
    rw [lost_of_same hj, held, hj]
    exact Nat.zero_add _

/-- A job that looks different, and perhaps gave up some slots. -/
theorem Settles.of_setJob {n : Nat} (hn : l.nextId ≤ l'.nextId) (hj : l.jobs[k]? = some j)
    (he : l'.jobs = l.jobs.insert k q) (hp : l'.ports[p]? = l.ports[p]?.map (told n))
    (hslots : n + q.holds p = j.holds p) : Settles p l l' where
  nextId := hn
  balance := by
    refine ⟨n, hp, ?_⟩
    have hlaw := held_setJob (p := p) hj q
    have hsame : held p l' = held p (l.setJob k q) := by
      unfold held
      rw [he]
      rfl
    rw [lost_of_insert he, hsame]
    omega

/-- **No change but the ones that are asked for moves a port without telling it, or the job of the
slot is gone.** -/
theorem Change.settles (h : Change op l l') (hop : op.SparesPorts) (p : PortId) :
    Settles p l l' := by
  -- A port leaves a slot in three ways: it is unbound, its job is buried, or its job is gone.
  -- The first two tell it, and the third one counts as lost.  The changes that put a port into a
  -- slot, or speak to it by hand, are ruled out by `hop`.
  cases h with
  | aside hn hi => exact .of_same hi rfl rfl
  | @born j hn hj =>
    refine ⟨Nat.le_refl _, 0, (map_told_zero _).symm, ?_⟩
    have hholds : j.holds p = 0 := by
      unfold Job.Post.holds
      rw [hj.slot, hj.slot]
      rfl
    have hheld : held p { l.setJob l.nextKoid j with nextKoid := l.nextKoid + 1 } = held p l := by
      exact (Store.weight_insert hn _ _).trans (by rw [hholds]; rfl)
    rw [lost_of_insert (k := l.nextKoid) (q := j) rfl, hheld]
    omega
  | @gone k j hj =>
    refine ⟨Nat.le_refl _, 0, (map_told_zero _).symm, ?_⟩
    have hheld : held p { l with jobs := l.jobs.erase k } + j.holds p = held p l :=
      Store.weight_erase hj _
    rw [lost_of_erase hj rfl]
    omega
  | listed hj hr hne =>
    exact .of_setJob (n := 0) (Nat.le_refl _) hj rfl (map_told_zero _).symm (Nat.zero_add _)
  | condemned hj hr hv =>
    exact .of_setJob (n := 0) (Nat.le_refl _) hj rfl (map_told_zero _).symm (Nat.zero_add _)
  | buried hj hr hv =>
    exact .of_setJob (Nat.le_refl _) hj rfl (getElem?_tellPorts _ _ _) (Nat.add_zero _)
  | @unbound refuses k j r b hr hj hs =>
    refine .of_setJob (Nat.le_refl _) hj rfl (getElem?_tellPort l.ports (some r) p) ?_
    have hholds := Job.Post.holds_setSlot p j b none
    rw [hs, if_neg (Option.some_ne_none p).symm] at hholds
    omega
  | bound hb hj hs => exact (hb ▸ hop : (Op.bindPort _ _).SparesPorts).elim
  | told hb => exact (hb ▸ hop : (Op.unbindPort _).SparesPorts).elim
  | opened hb => exact (hb ▸ hop : (Op.openPort _ _).SparesPorts).elim
  | vmoBorn ho hv => exact .of_same (Nat.le_refl _) rfl rfl
  | vmoGone => exact .of_same (Nat.le_refl _) rfl rfl
  | tinted hb hv => exact .of_same (Nat.le_refl _) rfl rfl

/-- A child that leaves may bring death to the job, and then the ports in its slots are told as
often as they stand there. -/
theorem settles_leave {js ps : List Koid} (hj : l.jobs[k]? = some j)
    (he : l' = l.leave k { j with jobs := js, processes := ps }) (p : PortId) :
    Settles p l l' := by
  set i : Job.Post := { j with jobs := js, processes := ps }
  have hjobs : l'.jobs = l.jobs.insert k i.bereft := he ▸ rfl
  have hports : l'.ports = if i.dies then l.ports.tellPorts i else l.ports := he ▸ rfl
  have hnext : l.nextId ≤ l'.nextId := he ▸ Nat.le_refl _
  have hslot : i.bereft.slot = if i.dies then fun _ => none else i.slot := i.slot_bereft
  cases hd : i.dies with
  | true =>
    rw [hd, if_pos rfl] at hports hslot
    refine .of_setJob (n := j.holds p) hnext hj hjobs (hports ▸ getElem?_tellPorts _ _ _) ?_
    unfold Job.Post.holds
    rw [hslot]
    rfl
  | false =>
    rw [hd, if_neg Bool.false_ne_true] at hports hslot
    refine .of_setJob (n := 0) hnext hj hjobs (hports ▸ (map_told_zero _).symm) ?_
    unfold Job.Post.holds
    rw [hslot]
    exact Nat.zero_add _

end Ledger

/-- **One shift settles the account of a port**, unless it is about binding: what leaves a slot is
told, or is lost with its job. -/
theorem System.Shift.settles {op : Op} {s t : System} (h : System.Shift op s t)
    (hop : op.SparesPorts) (p : PortId) : Ledger.Settles p s.ledger t.ledger := by
  cases h with
  | change hc => exact hc.settles hop p
  | left hj hv ht he => exact Ledger.settles_leave (System.job_ledger hj) he p

/-! ## 3. Runs

Each operation adds to one of the numbers of the account, or its shifts move an amount from one to
the other.  Telling a port by hand is booked with the bindings, so that both sides grow. -/

namespace System

variable {s t : System} {p : PortId}

/-- The slots that hold a port, counted in the state and in the ledger. -/
theorem slotsHolding_eq (s : System) (p : PortId) : s.slotsHolding p = s.ledger.held p := by
  refine Store.weight_congr fun k => ?_
  cases hj : s.jobs[k]? with
  | none => rw [Store.share_of_none hj, Store.share_of_none (by rw [jobs_ledger, hj]; rfl)]
  | some j => rw [Store.share_of_some hj, Store.share_of_some (job_ledger hj)]; rfl

/-- The bindings that go with their jobs, counted in the two states and in their ledgers. -/
theorem slotsLost_eq (p : PortId) (s t : System) :
    slotsLost p (s, t) = Ledger.lost p s.ledger t.ledger := by
  refine Store.weight_congr fun k => ?_
  have hthere : t.ledger.jobs.contains k = t.jobs.contains k := by
    rw [Store.contains_eq_isSome, Store.contains_eq_isSome, jobs_ledger, Option.isSome_map]
  cases hj : s.jobs[k]? with
  | none => rw [Store.share_of_none hj, Store.share_of_none (by rw [jobs_ledger, hj]; rfl)]
  | some j =>
    rw [Store.share_of_some hj, Store.share_of_some (job_ledger hj), hthere]
    rfl

end System

namespace World

open KernelObjects.System (slotsLost)

/-- The bindings of a port are accounted for: it was told so many times, so many slots hold it, and
so many went with their jobs. -/
structure Accounts (p : PortId) (binds tells lost : Nat) (s : System) : Prop where
  unopened : s.nextId ≤ p → s.ports[p]? = none
  balance : ∃ told, (∀ q, s.ports[p]? = some q → q.unbinds = told % UInt32.size) ∧
    told + s.slotsHolding p + lost = binds + tells ∧ (s.ports[p]? = none → binds + tells = 0)

variable {op : Op} {s t : System} {p : PortId} {b h l : Nat}

/-- **A shift that spares the ports keeps the account of a port.** -/
theorem Accounts.shift (ha : Accounts p b h l s) (hs : System.Shift op s t)
    (hop : op.SparesPorts) : Accounts p b h (l + slotsLost p (s, t)) t := by
  obtain ⟨hnext, n, hports, hn⟩ := hs.settles hop p
  have hports : t.ports[p]? = s.ports[p]?.map (Ledger.told n) := hports
  have hnone : t.ports[p]? = none ↔ s.ports[p]? = none := by
    rw [hports, Option.map_eq_none_iff]
  rw [← System.slotsHolding_eq, ← System.slotsHolding_eq, ← System.slotsLost_eq] at hn
  obtain ⟨told, hq, hbalance, hzero⟩ := ha.balance
  refine ⟨fun hp => hnone.2 (ha.unopened (Nat.le_trans hnext hp)), told + n, fun q hq' => ?_, ?_,
    fun h => hzero (hnone.1 h)⟩
  · rw [hports] at hq'
    obtain ⟨q₀, hq₀, rfl⟩ := Option.map_eq_some_iff.1 hq'
    exact Ledger.unbinds_told (hq q₀ hq₀) n
  · omega

/-- Along shifts only the losses add up. -/
theorem Accounts.shifts {es : List (System × System)} (ha : Accounts p b h l s)
    (hs : System.Shifts op s es t) (hop : op.SparesPorts) :
    Accounts p b h (l + total (slotsLost p) es) t := by
  have hkeeps := hs.keeps
    (I := fun fs u => Accounts p b h (l + total (slotsLost p) fs) u)
    (fun {fs a c} hi _ hshift => by
      rw [total_append, total_cons, total_nil, Nat.add_zero, ← Nat.add_assoc]
      exact hi.shift hshift hop)
    [] ha
  exact hkeeps

theorem slotsLost_self (p : PortId) (s : System) : slotsLost p (s, s) = 0 :=
  (System.slotsLost_eq p s s).trans (Ledger.lost_of_same rfl)

/-- A binding that is made is one more in the slots and one more that was made; a slot that is taken
refuses it. -/
theorem Accounts.bindPort (ha : Accounts p b h l s) (k : Koid) (r : PortId) :
    Accounts p (b + if r == p && (s.bindPort k r).1.isOk then 1 else 0) h
      (l + slotsLost p (s, (s.bindPort k r).2)) (s.bindPort k r).2 := by
  obtain ⟨e, he⟩ | ⟨j, q, c, hj, hq, -, hslot, he⟩ := s.bindPort_cases k r
  · rw [he, slotsLost_self, if_neg]
    · exact ha
    · rw [Bool.and_eq_true]
      exact fun h => Bool.false_ne_true h.2
  · rw [he]
    set t := s.modifyJob k (Job.fillSlot c r)
    have hledger : t.ledger = s.ledger.setJob k (j.post.setSlot c (some r)) :=
      s.ledger_setJob hj (System.post_fillSlot j c r)
    have hlost : slotsLost p (s, t) = 0 :=
      (System.slotsLost_eq p s t).trans (Ledger.lost_of_insert (congrArg Ledger.jobs hledger))
    have hheld := Ledger.held_setJob (p := p) (System.job_ledger hj) (j.post.setSlot c (some r))
    rw [← hledger, ← System.slotsHolding_eq, ← System.slotsHolding_eq] at hheld
    -- The slot was empty, so nothing is pushed out of it and the port in it is one more.
    have hholds := Job.Post.holds_setSlot p j.post c (some r)
    rw [show j.post.slot c = none from hslot, if_neg (Option.some_ne_none p).symm, Nat.add_zero]
      at hholds
    simp only [Option.some_inj] at hholds
    have hok : (r == p && (Except.ok () : Outcome Unit).isOk) = decide (r = p) := by
      rw [show (Except.ok () : Outcome Unit).isOk = true from rfl, Bool.and_true]
      rfl
    obtain ⟨told, hunbinds, hbalance, hzero⟩ := ha.balance
    dsimp only
    rw [hlost, hok]
    refine ⟨ha.unopened, told, hunbinds, ?_, fun hnone => ?_⟩
    · by_cases hr : r = p
      · subst hr
        simp only [decide_true, if_true] at hholds ⊢
        omega
      · simp only [hr, decide_false, if_false] at hholds ⊢
        simp only [Bool.false_eq_true, if_false]
        omega
    · have hr : r ≠ p := by
        rintro rfl
        rw [show s.ports[r]? = none from hnone] at hq
        cases hq
      simp only [hr, decide_false, Bool.false_eq_true, if_false]
      exact hzero hnone

/-- A notice by hand is counted as one, with no slot emptied. -/
theorem Accounts.unbindPort (ha : Accounts p b h l s) (r : PortId) :
    Accounts p b (h + if r == p && s.ports.contains r then 1 else 0)
      (l + slotsLost p (s, s.unbindPort r)) (s.unbindPort r) := by
  have hlost : slotsLost p (s, s.unbindPort r) = 0 :=
    (System.slotsLost_eq p s _).trans (Ledger.lost_of_same rfl)
  have hports : (s.unbindPort r).ports[p]? =
      s.ports[p]?.map (Ledger.told (if r = p then 1 else 0)) := by
    have htold := Ledger.getElem?_tellPort s.ports (some r) p
    by_cases hr : r = p
    · rw [if_pos (congrArg some hr)] at htold
      rw [if_pos hr]
      exact htold
    · rw [if_neg fun h => hr (Option.some.inj h)] at htold
      rw [if_neg hr]
      exact htold
  have hnone : (s.unbindPort r).ports[p]? = none ↔ s.ports[p]? = none := by
    rw [hports, Option.map_eq_none_iff]
  obtain ⟨told, hunbinds, hbalance, hzero⟩ := ha.balance
  have hbalance : told + (s.unbindPort r).slotsHolding p + l = b + h := hbalance
  rw [hlost]
  -- a port that is not there is told nothing, and counts nothing
  cases hp : s.ports[p]? with
  | none =>
    have hcond : (r == p && s.ports.contains r) = false := by
      by_cases hr : r = p
      · rw [hr, Store.contains_eq_isSome, hp]
        exact Bool.and_false _
      · simp [hr]
    rw [hcond]
    refine ⟨fun _ => hnone.2 hp, told, fun q hq => ?_, hbalance, fun _ => hzero hp⟩
    rw [hnone.2 hp] at hq
    cases hq
  | some q₀ =>
    have hcond : (r == p && s.ports.contains r) = decide (r = p) := by
      by_cases hr : r = p
      · rw [hr, Store.contains_eq_isSome, hp]
        simp
      · simp [hr]
    rw [hcond]
    refine ⟨fun hp' => ?_, told + if r = p then 1 else 0, fun q hq => ?_, ?_, fun hn => ?_⟩
    · have := ha.unopened hp'
      rw [hp] at this
      cases this
    · rw [hports, hp, Option.map_some, Option.some_inj] at hq
      subst hq
      exact Ledger.unbinds_told (hunbinds q₀ hp) _
    · simp only [decide_eq_true_eq]
      omega
    · rw [hnone, hp] at hn
      cases hn

/-- A new port has no bindings and no notices, and its id was never seen in a slot. -/
theorem Accounts.openPort (ha : Accounts p b h l s) (kind : PortKind) (key : Nat) :
    Accounts p b h (l + slotsLost p (s, (s.openPort kind key).2)) (s.openPort kind key).2 := by
  set t := (s.openPort kind key).2
  have hlost : slotsLost p (s, t) = 0 :=
    (System.slotsLost_eq p s _).trans (Ledger.lost_of_same rfl)
  have hports : t.ports[p]? = if s.nextId = p then some { kind, key } else s.ports[p]? :=
    Store.getElem?_insert _ _ _ _
  obtain ⟨told, hunbinds, hbalance, hzero⟩ := ha.balance
  have hbalance : told + t.slotsHolding p + l = b + h := hbalance
  rw [hlost]
  -- The new port itself was unopened until now, so its account was zero; no other port notices.
  by_cases hp : s.nextId = p
  · rw [if_pos hp] at hports
    have hnone := hzero (ha.unopened (Nat.le_of_eq hp))
    refine ⟨fun hlt => absurd hp ?_, 0, fun q hq => ?_, by omega, fun hn => ?_⟩
    · have hlt : s.nextId + 1 ≤ p := hlt
      omega
    · rw [hports] at hq
      cases hq
      rfl
    · rw [hports] at hn
      cases hn
  · rw [if_neg hp] at hports
    refine ⟨fun hlt => ?_, told, hports ▸ hunbinds, hbalance, hports ▸ hzero⟩
    rw [hports]
    exact ha.unopened (Nat.le_of_succ_le hlt)

variable {P : System → Op → Prop} {w : World} {ls : List Leg}

/-- **Every journey keeps the account of every port.** -/
theorem Journey.accounts (h : Journey P {} ls w) (p : PortId) :
    Accounts p (ls.countP (Leg.binds p)) (ls.countP (Leg.tells p))
      (total (slotsLost p) (along ls)) w.system := by
  refine h.keeps_legs
    (I := fun ls s => Accounts p (ls.countP (Leg.binds p)) (ls.countP (Leg.tells p))
      (total (slotsLost p) (along ls)) s)
    ?_ fun {ls v op es} hi hroute hes => ?_
  · refine ⟨fun _ => by simp [System.initial], 0, fun q hq => ?_, ?_, fun _ => rfl⟩
    · simp [System.initial] at hq
    · have hheld : System.initial.slotsHolding p = 0 :=
        Store.weight_eq_zero fun k j hj => by simp [System.initial] at hj
      rw [hheld]
      rfl
  · rw [along_concat, total_append, List.countP_append, List.countP_singleton, List.countP_append,
      List.countP_singleton]
    -- an operation that touches ports is a pace itself
    have honce (hop : op.AtOnce) :
        total (slotsLost p) es = slotsLost p (v.system, (v.act op).system) := by
      cases hroute with
      | once _ => exact Nat.add_zero _
      | paces hnot _ => exact absurd hop hnot
    cases op with
    | bindPort k r =>
      rw [honce trivial]
      exact hi.bindPort k r
    | unbindPort r =>
      rw [honce trivial]
      exact hi.unbindPort r
    | openPort kind key =>
      rw [honce trivial]
      exact hi.openPort kind key
    | _ => exact hi.shifts hes trivial

/-- **The bindings of a port are accounted for.**  In any journey that leads to a state, every
binding of a port that is there was undone and the port was told so once, or it still stands in a
slot, or the slot went with its job and the port was not told.  So the bindings are those that the
port counts and those that still stand just as long as no slot that held it went with its job, and
as long as nobody told it by hand and its counter did not overflow. -/
theorem Ran.bindings_accounted (h : w.Ran P) :
    (∃ ls, Journey P {} ls w) ∧ ∀ ls, Journey P {} ls w → ∀ p q, w.system.ports[p]? = some q →
      ∃ told, q.unbinds = told % UInt32.size ∧
        told + w.system.slotsHolding p + total (slotsLost p) (along ls) =
          ls.countP (Leg.binds p) + ls.countP (Leg.tells p) ∧
        (ls.countP (Leg.tells p) = 0 → told < UInt32.size →
          (ls.countP (Leg.binds p) = q.unbinds + w.system.slotsHolding p ↔
            ∀ e ∈ along ls, slotsLost p e = 0)) := by
  refine ⟨h.journey, fun ls hls p q hq => ?_⟩
  obtain ⟨told, hunbinds, hbalance, -⟩ := (hls.accounts p).balance
  refine ⟨told, hunbinds q hq, hbalance, fun htells hlt => ?_⟩
  rw [hunbinds q hq, Nat.mod_eq_of_lt hlt, ← total_eq_zero_iff]
  omega

/-- How often operations bind a port, if they are done one after the other. -/
def bindings (p : PortId) : World → List Op → Nat
  | _, [] => 0
  | w, op :: ops => (if Leg.binds p ⟨w, op, []⟩ then 1 else 0) + bindings p (w.act op) ops

/-- A port is bound to a job that is killed, to its parent, and to another job that is given back
alive. -/
def bindingOps : List Op :=
  [.createRootJob false, .createJob 1024, .createJob 1024, .openPort .job 0, .bindPort 1025 1,
    .killJob .generous 7 1025, .bindPort 1024 1, .bindPort 1026 1, .drop (.release (.object 1026))]

/-- One of the three bindings was undone, one stands, and one is lost. -/
theorem Ran.bindings_accounted_of_binding :
    let w := run bindingOps
    ((∃ ls, Journey (fun _ _ => True) {} ls w) ∧ ∀ ls, Journey (fun _ _ => True) {} ls w →
      ∀ p q, w.system.ports[p]? = some q → ∃ told, q.unbinds = told % UInt32.size ∧
        told + w.system.slotsHolding p + total (slotsLost p) (along ls) =
          ls.countP (Leg.binds p) + ls.countP (Leg.tells p) ∧
        (ls.countP (Leg.tells p) = 0 → told < UInt32.size →
          (ls.countP (Leg.binds p) = q.unbinds + w.system.slotsHolding p ↔
            ∀ e ∈ along ls, slotsLost p e = 0))) ∧
    w.system.ports[1]? = some { kind := .job, key := 0, unbinds := 1 } ∧
    w.system.slotsHolding 1 = 1 ∧ bindings 1 {} bindingOps = 3 := by
  have hran : (run bindingOps).Ran fun _ _ => True := Ran.start.foldl (keep_any _ _)
  exact ⟨hran.bindings_accounted, by cbv, by cbv, by cbv⟩

/-- The one job that a port is bound to is given back. -/
def givingUpOps : List Op :=
  [.createRootJob false, .createJob 1024, .openPort .job 0, .bindPort 1025 1,
    .drop (.release (.object 1025))]

/-- A binding ends with its job: the port is in no slot any more and was not told. -/
theorem binding_lost_with_job :
    let w := run givingUpOps
    (∀ op ∈ givingUpOps, ∀ p, op ≠ .unbindPort p) ∧
    w.system.ports[1]? = some { kind := .job, key := 0, unbinds := 0 } ∧
    w.system.jobs.contains 1025 = false ∧
    bindings 1 {} givingUpOps ≠ 0 + w.system.slotsHolding 1 := by
  refine ⟨by simp [givingUpOps], by cbv, by cbv, ?_⟩
  rw [show bindings 1 {} givingUpOps = 1 by cbv,
    show (run givingUpOps).system.slotsHolding 1 = 0 by cbv]
  decide

end World

end KernelObjects
