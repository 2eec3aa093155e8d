import KernelObjects.Proofs.Preorder
import KernelObjects.Proofs.Bindings

/-
# What the reset of a port slot cleans up

A reset takes the port out of the slot and tells it so.  After that a walk goes over the processes
of the job and of all jobs below it, and each of them drops what waits at this port; ports are
told apart by their identity, so what waits at another port of the same kind and key stays.

**Why the walk can be read off the state before the reset.**  Neither an empty slot nor a dropped
report shows in what a walk reads (`Inert`), and no visit breaks the walk off.  So it comes by the
preorder of that state up to the first snapshot that is refused (`System.Passes`), and leaves that
state, with the reports dropped in the processes that it came by (`System.dropReportsOf`).  What
it held for a while it has given back.

A refused snapshot ends the walk with an error, and the slot is empty all the same: it was emptied
before the walk began.  What was dropped by then stays dropped, so a reset that failed has cleaned
up a beginning of the preorder, and which one is known from the requests that were granted.
-/

namespace KernelObjects

/-! ## 1. Dropping reports

What the visitor does to one process, and to all that it visits. -/

/-- A process without what waits at a port.  The rest waits on in its order. -/
def Process.without (p : PortId) (q : Process) : Process :=
  { q with pending := q.pending.filter fun r => r.port ≠ p }

/-- A report that was dropped cannot be dropped again. -/
theorem Process.without_without (p : PortId) (q : Process) :
    (q.without p).without p = q.without p := by
  unfold without
  simp only [List.filter_filter, Bool.and_self]

namespace System

variable {s t : System} {p : PortId} {vs : List Visit} {k : Koid}

/-- The state after visits that drop what waits at a port. -/
def dropReportsOf (s : System) (p : PortId) (vs : List Visit) : System :=
  vs.foldl (fun s v => (dropReportsVisitor p v s ()).2.1) s

theorem dropReportsOf_concat (v : Visit) : s.dropReportsOf p (vs ++ [v]) =
    (dropReportsVisitor p v (s.dropReportsOf p vs) ()).2.1 := by
  unfold dropReportsOf
  rw [List.foldl_append]
  rfl

/-- One process drops reports, and the others keep theirs. -/
theorem processes_dropReports (s : System) (p : PortId) (y : Koid) (x : Nat) :
    (s.dropReports p y).processes[x]? =
      if y = x then s.processes[x]?.map (Process.without p) else s.processes[x]? :=
  Store.getElem?_modify _ _ _ _

/-- What was visited has lost its reports, and nothing else has changed. -/
theorem dropReportsOf_eq (s : System) (p : PortId) (vs : List Visit) :
    ∃ processes, s.dropReportsOf p vs = { s with processes } ∧ ∀ x : Nat, processes[x]? =
      if .process x ∈ vs then s.processes[x]?.map (Process.without p) else s.processes[x]? := by
  induction vs generalizing s with
  | nil => exact ⟨s.processes, rfl, fun x => (if_neg List.not_mem_nil).symm⟩
  | cons v vs ih =>
    cases v with
    | job c =>
      obtain ⟨processes, he, hprocesses⟩ := ih s
      refine ⟨processes, he, fun x => ?_⟩
      rw [hprocesses]
      simp only [List.mem_cons, reduceCtorEq, false_or]
    | process y =>
      obtain ⟨processes, he, hprocesses⟩ := ih (s.dropReports p y)
      refine ⟨processes, he, fun x => ?_⟩
      rw [hprocesses, processes_dropReports]
      -- A process may be visited again, if it was listed by hand.  Then it has no reports left to
      -- lose.
      by_cases hx : y = x
      · subst hx
        rw [if_pos rfl, if_pos List.mem_cons_self, Option.map_map]
        have hcomp : Process.without p ∘ Process.without p = Process.without p :=
          funext (Process.without_without p)
        rw [hcomp, ite_self]
      · rw [if_neg hx]
        have hmem : Visit.process x ∈ Visit.process y :: vs ↔ .process x ∈ vs := by
          rw [List.mem_cons, or_iff_right]
          exact fun he => hx (Visit.process.inj he).symm
        simp only [hmem]

theorem inert_dropReportsOf (s : System) (p : PortId) (vs : List Visit) :
    Inert s (s.dropReportsOf p vs) := by
  induction vs generalizing s with
  | nil => exact .refl s
  | cons v vs ih =>
    cases v with
    | job c => exact ih s
    | process y => exact ((s.dropReports_edit p y).inert (by decide)).trans (ih _)

end System

/-! ## 2. What a walk reads

The lists and what is there: nothing else decides which way a walk goes and how much memory it
asks for. -/

namespace Inert

variable {s t : System} {refuses : Allocator} {deep : Bool} {vs : List Visit}

/-- A job that is there has the same lists of children. -/
theorem lists (h : Inert s t) (k : Koid) :
    s.jobs[k]? = none ∧ t.jobs[k]? = none ∨
    ∃ j i, s.jobs[k]? = some j ∧ t.jobs[k]? = some i ∧
      i.processes = j.processes ∧ i.jobs = j.jobs := by
  have hk := h.job k
  cases hs : s.jobs[k]? with
  | none =>
    rw [hs, Option.map_none, Option.map_eq_none_iff] at hk
    exact .inl ⟨rfl, hk⟩
  | some j =>
    rw [hs, Option.map_some] at hk
    obtain ⟨i, hi, hkin⟩ := Option.map_eq_some_iff.1 hk
    exact .inr ⟨j, i, rfl, hi, congrArg Job.Kin.processes hkin, congrArg Job.Kin.jobs hkin⟩

/-- Which children live is read off the lists and off what is there. -/
theorem liveChildren (h : Inert s t) (k : Koid) : t.liveChildren k = s.liveChildren k := by
  have hjobs : ∀ c : Nat, t.jobs.contains c = s.jobs.contains c :=
    fun c => Store.contains_of_map (h.job c)
  have hprocesses : ∀ p : Nat, t.processes.contains p = s.processes.contains p :=
    fun p => Store.contains_of_map (h.process p)
  unfold System.liveChildren
  simp only [hjobs, hprocesses]
  obtain ⟨hs, ht⟩ | ⟨j, i, hs, ht, hp, hj⟩ := h.lists k
  · rw [hs, ht]
  · rw [hs, ht]
    dsimp only
    rw [hp, hj]

/-- A snapshot is as long as the lists are. -/
theorem snapshotRequest (h : Inert s t) (k : Koid) :
    t.snapshotRequest k = s.snapshotRequest k := by
  unfold System.snapshotRequest
  obtain ⟨hs, ht⟩ | ⟨j, i, hs, ht, hp, hj⟩ := h.lists k
  · rw [hs, ht]
  · rw [hs, ht]
    dsimp only
    rw [hp, hj]

/-- **What is inert does not show in the preorder**, which is read off the lists of the jobs within
their heights. -/
theorem preorder (h : Inert s t) (k : Koid) : t.preorder deep k = s.preorder deep k := by
  have hheight : t.height k = s.height k := by
    have hmap := congrArg (Option.map Job.Kin.maxHeight) (h.job k)
    rw [Option.map_map, Option.map_map] at hmap
    exact congrArg (Option.getD · 0) hmap
  have hwithin : ∀ n k, t.preorderWithin deep n k = s.preorderWithin deep n k := by
    intro n
    induction n with
    | zero =>
      intro k
      rw [System.preorderWithin, System.preorderWithin, h.liveChildren]
    | succ n ih =>
      intro k
      rw [System.preorderWithin, System.preorderWithin, h.liveChildren]
      simp only [ih]
  unfold System.preorder
  rw [hheight, hwithin]

theorem denies_iff (h : Inert s t) (k : Koid) :
    t.Denies refuses deep k vs ↔ s.Denies refuses deep k vs := by
  unfold System.Denies System.requests
  simp only [h.snapshotRequest]

end Inert

/-! ## 3. Walks that no visit breaks off

The visitor always goes on, so only a refused snapshot ends the walk early. -/

/-- How far a walk comes that no visit breaks off, and what it answers. -/
inductive System.Passes (s : System) (refuses : Allocator) (deep : Bool) (k : Koid) :
    List Visit → Outcome Bool → Prop
  /-- Every snapshot is granted. -/
  | whole (hg : ∀ us, us <+: s.preorder deep k → ¬ s.Denies refuses deep k us) :
      Passes s refuses deep k (s.preorder deep k) (.ok true)
  /-- The first snapshot that is refused is the one after these visits. -/
  | refused {vs : List Visit} (hv : vs <+: s.preorder deep k) (hd : s.Denies refuses deep k vs)
      (hg : ∀ us, us <+: vs → us ≠ vs → ¬ s.Denies refuses deep k us) :
      Passes s refuses deep k vs (.error .noMemory)

section Passes

variable {s t : System} {d : List Task} {refuses : Allocator} {deep : Bool} {k : Koid}
  {vs : List Visit} {cs : List Call} {e : Outcome Bool} {p : PortId}

/-- A walk whose visits all go on passes over everything, or ends at a refused snapshot. -/
theorem Cuts.passes (h : Cuts s refuses deep k (s.preorder deep k) cs e)
    (hgo : ∀ c ∈ cs, c.goesOn = true) : s.Passes refuses deep k (cs.map Call.visit) e := by
  cases h with
  | whole hv _ hg =>
    rw [hv]
    exact .whole hg
  | stopped _ _ hstop _ =>
    rw [hgo _ (List.mem_append_right _ (List.mem_singleton.2 rfl))] at hstop
    cases hstop
  | refused hv _ hd hg => exact .refused hv hd hg

/-- What does not show to walks does not change how far they come. -/
theorem Inert.passes (hi : Inert s t) (h : t.Passes refuses deep k vs e) :
    s.Passes refuses deep k vs e := by
  cases h with
  | whole hg =>
    rw [hi.preorder] at hg ⊢
    exact .whole fun us hus hd => hg us hus ((hi.denies_iff k).2 hd)
  | refused hv hd hg =>
    rw [hi.preorder] at hv
    exact .refused hv ((hi.denies_iff k).1 hd) fun us hus hne hd =>
      hg us hus hne ((hi.denies_iff k).2 hd)

/-- One visit. -/
theorem Lent.dropReports (h : Lent (s.dropReportsOf p vs) ⟨t, d⟩) (v : Visit) :
    Lent (s.dropReportsOf p (vs ++ [v])) ⟨(System.dropReportsVisitor p v t ()).2.1, d⟩ := by
  rw [System.dropReportsOf_concat]
  cases v with
  | job c => exact h
  | process x =>
    exact ⟨congrArg (fun u : System => u.dropReports p x) h.same, h.count, h.dues⟩

/-- What a walk finds while things are lent is what does not show to it. -/
theorem Lent.sameBelow_of_inert {w : World} (h : Lent t w) (hi : Inert s t) (k : Koid) :
    s.SameBelow k w.system := by
  intro c _
  rw [h.same]
  exact ⟨hi.liveChildren c, hi.snapshotRequest c⟩

/-- **A walk that drops reports** does so where it passes, and does nothing else. -/
theorem Accounted.walk_dropReports (hacc : Accounted s d) (hl : Lineage s) (refuses : Allocator)
    (k : Koid) (p : PortId) :
    let r := s.walk refuses k true (System.dropReportsVisitor p) ()
    ∃ vs, s.Passes refuses true k vs r.1.outcome ∧
      r.2.1 = { s.dropReportsOf p vs with refs := r.2.1.refs } ∧
      ∀ q, r.2.1.refCount q = s.refCount q := by
  set f := System.dropReportsVisitor p
  have hinert : ∀ cs : List Call, Inert s (s.dropReportsOf p (cs.map Call.visit)) :=
    fun cs => s.inert_dropReportsOf p _
  -- While the walk goes on, what is held is on loan and what is dropped so far is known.  Every
  -- call says that the tree below `k` is the one of the start, which is what makes the calls a
  -- cut of the preorder.
  have hkeeps : Walk.Keeps (Walk.logging f) fun w (mine : Unit × List Call) =>
      Lent (s.dropReportsOf p (mine.2.map Call.visit)) w ∧
        ∀ c ∈ mine.2, c.goesOn = true ∧ s.SameBelow k c.after :=
    { lending := fun mine =>
        have hlending := Lent.lending
          (Moves.accounted (A := True) (C := True) ((hinert mine.2).moves d) hacc)
        { reorder := fun hp h => ⟨hlending.reorder hp h.1, h.2⟩
          share := fun hr h => ⟨hlending.share hr h.1, h.2⟩
          release := fun h => ⟨hlending.release h.1, h.2⟩ }
      visit := by
        intro v t mine e h
        have hlog : (Walk.logging f v t mine).2.2.2 =
            mine.2 ++ [⟨v, t, (f v t ()).1, (f v t ()).2.1⟩] := rfl
        have hlent : Lent (s.dropReportsOf p ((Walk.logging f v t mine).2.2.2.map Call.visit))
            ⟨(Walk.logging f v t mine).2.1, e⟩ := by
          rw [hlog, List.map_append]
          exact h.1.dropReports v
        refine ⟨hlent, fun c hc => ?_⟩
        rw [hlog] at hc
        rcases List.mem_append.1 hc with hc | hc
        · exact h.2 c hc
        · obtain rfl := List.mem_singleton.1 hc
          refine ⟨?_, hlent.sameBelow_of_inert (hinert _) k⟩
          cases v <;> rfl }
  have hstart : Lent s ⟨s, []⟩ := ⟨rfl, fun _ => rfl, by simp⟩
  obtain ⟨hlent, hcalls⟩ :=
    System.walk_keeps hkeeps s refuses k true ((), []) [] ⟨hstart, by simp⟩
  have hcuts := System.walk_cuts hl refuses k true f () fun c hc => (hcalls c hc).2
  rw [s.walk_logging refuses k true f () []]
  refine ⟨_, hcuts.passes fun c hc => (hcalls c hc).1, hlent.same, fun q => ?_⟩
  refine (hlent.count q).trans ?_
  unfold System.refCount
  rw [(hinert _).refs]
  rfl

end Passes

/-! ## 4. Resets

The slot is emptied and the port is told before the walk begins, so both hold whatever comes of
the walk. -/

/-- What a reset leaves of a state, if a slot of a job held a port and these visits were made. -/
structure System.ResetLeaves (s : System) (k : Koid) (b : Bool) (p : PortId) (vs : List Visit)
    (t : System) : Prop where
  /-- The slot is empty, and the other one is what it was. -/
  job : ∀ j, s.jobs[k]? = some j → t.jobs[k]? = some (j.clearSlot b) ∧
    (j.clearSlot b).slot b = none ∧ (j.clearSlot b).slot (!b) = j.slot (!b)
  jobs : ∀ c : Nat, c ≠ k → t.jobs[c]? = s.jobs[c]?
  /-- The port was told once. -/
  port : ∃ q, s.ports[p]? = some q ∧
    t.ports[p]? = some { q with unbinds := (q.unbinds + 1) % UInt32.size }
  ports : ∀ q : Nat, q ≠ p → t.ports[q]? = s.ports[q]?
  /-- The processes that were visited have lost what waited at the port, in their order. -/
  visited : ∀ x : Nat, .process x ∈ vs → t.processes[x]? = s.processes[x]?.map fun r =>
    { r with pending := r.pending.filter fun report => report.port ≠ p }
  processes : ∀ x : Nat, .process x ∉ vs → t.processes[x]? = s.processes[x]?
  rest : t = { s with
    jobs := t.jobs, ports := t.ports, processes := t.processes, refs := t.refs }
  refs : ∀ r, t.refCount r = s.refCount r

/-- What holds of the reset of a port slot. -/
structure System.ResetSound (s : System) (refuses : Allocator) (k : Koid) (b : Bool) : Prop where
  /-- If no port was bound, nothing changes. -/
  unbound : (∀ j, s.jobs[k]? = some j → j.slot b = none) →
    s.resetPort refuses k b = (.ok false, s)
  /-- Else the slot is given up, and reports are dropped as far as a walk comes. -/
  bound : ∀ {j : Job} {p : PortId}, s.jobs[k]? = some j → j.slot b = some p →
    ∃ vs, s.Passes refuses true k vs (s.resetPort refuses k b).1 ∧
      s.ResetLeaves k b p vs (s.resetPort refuses k b).2

namespace System

variable {s : System} {k : Koid} {b : Bool} {j : Job} {p : PortId} {vs : List Visit}

/-- A port that is bound is counted among the slots that hold it. -/
theorem slotsHolding_pos (hj : s.jobs[k]? = some j) (hp : j.slot b = some p) :
    0 < s.slotsHolding p := by
  refine Store.weight_pos hj ?_
  unfold Job.holds
  cases b with
  | false =>
    rw [if_pos (show j.port = some p from hp)]
    exact Nat.lt_of_lt_of_le Nat.zero_lt_one (Nat.le_add_right _ _)
  | true =>
    rw [if_pos (show j.debuggerPort = some p from hp)]
    exact Nat.lt_of_lt_of_le Nat.zero_lt_one (Nat.le_add_left _ _)

/-- **What a reset leaves after these visits**, with whatever was borrowed on the way given back. -/
theorem unslotted_leaves {q : Port} {refs : RefCounts} (hp : s.ports[p]? = some q)
    (hrefs : ∀ r, refs.count r = s.refCount r) :
    s.ResetLeaves k b p vs { (s.unslotted k b p).dropReportsOf p vs with refs } := by
  obtain ⟨processes, he, hprocesses⟩ := (s.unslotted k b p).dropReportsOf_eq p vs
  rw [he]
  constructor
  case job =>
    intro j hj
    refine ⟨?_, ?_, ?_⟩
    · show (s.jobs.modify k (·.clearSlot b))[k]? = _
      rw [Store.getElem?_modify, if_pos rfl, hj, Option.map_some]
    · cases b <;> rfl
    · cases b <;> rfl
  case jobs => exact fun c hc => (Store.getElem?_modify _ _ _ _).trans (if_neg (Ne.symm hc))
  case port =>
    refine ⟨q, hp, ?_⟩
    show (s.ports.modify p Port.told)[p]? = _
    rw [Store.getElem?_modify, if_pos rfl, hp, Option.map_some]
    rfl
  case ports => exact fun q hq => (Store.getElem?_modify _ _ _ _).trans (if_neg (Ne.symm hq))
  case visited => exact fun x hx => (hprocesses x).trans (if_pos hx)
  case processes => exact fun x hx => (hprocesses x).trans (if_neg hx)
  case rest => rfl
  case refs => exact hrefs

end System

/-- **The preorder of a deep walk** comes by all live children of what is reached, and no more. -/
theorem Lineage.mem_preorder_iff {s : System} (h : Lineage s) {k : Koid} {v : Visit} :
    v ∈ s.preorder true k ↔ ∃ y, s.Reaches k y ∧ s.HasLive y v := by
  refine ⟨h.hasLive_of_mem_preorder, ?_⟩
  rintro ⟨y, hy, hv⟩
  induction hy using Relation.ReflTransGen.head_induction_on with
  | refl =>
    rw [h.preorder_eq, List.mem_append, List.mem_map, List.mem_flatMap]
    cases v with
    | process p => exact .inl ⟨p, hv, rfl⟩
    | job c => exact .inr ⟨c, hv, List.mem_cons_self⟩
  | head hstep _ ih =>
    rw [h.preorder_eq, List.mem_append, List.mem_flatMap]
    exact .inr ⟨_, hstep, List.mem_cons_of_mem _ ih⟩

namespace World

variable {P : System → Op → Prop} {w : World}

/-- A port in a slot is there. -/
theorem Ran.exists_port (h : w.Ran P) {k : Koid} {b : Bool} {j : Job} {p : PortId}
    (hj : w.system.jobs[k]? = some j) (hp : j.slot b = some p) :
    ∃ q, w.system.ports[p]? = some q := by
  obtain ⟨ls, hls⟩ := h.journey
  obtain ⟨told, -, hbalance, hnone⟩ := (hls.accounts p).balance
  have hpos := System.slotsHolding_pos hj hp
  refine Option.ne_none_iff_exists'.1 fun hgone => ?_
  have hzero := hnone hgone
  omega

/-- **The reset of a port slot cleans up below the job, and nowhere else**, in every state that
operations lead to, for every job, slot and allocator.  The port is told once and the slot is empty,
also where a snapshot is refused later on.  If none is, all processes of the job and of the live
jobs below it drop what waits at the port, and else those that the walk came by before that; the
order of what waits on, and all that is not below the job, stay as they were. -/
theorem Ran.resets_sound (h : w.Ran P) :
    (∀ refuses k b, w.system.ResetSound refuses k b) ∧
    ∀ k x, .process x ∈ w.system.preorder true k ↔
      ∃ y, w.system.Reaches k y ∧ w.system.HasLive y (.process x) := by
  refine ⟨fun refuses k b => ⟨System.resetPort_of_unbound, fun {j p} hj hp => ?_⟩,
    fun k x => h.passed.lineage.mem_preorder_iff⟩
  obtain ⟨q, hq⟩ := h.exists_port hj hp
  have hinert := w.system.inert_unslotted k b p
  have hpassed := h.passed.trans (hinert.moves w.dues)
  obtain ⟨vs, hpasses, hsame, hrefs⟩ :=
    hpassed.accounted.walk_dropReports hpassed.lineage refuses k p
  rw [System.resetPort_of_bound hj hp]
  dsimp only
  rw [hsame]
  refine ⟨vs, hinert.passes hpasses, System.unslotted_leaves hq fun r => ?_⟩
  exact (hrefs r).trans (congrArg (fun refs : RefCounts => refs.count r) hinert.refs)

/-- Two ports of one kind and key, and a process in the root job and one in the job below it.
Reports wait at the first port, which is bound to the root, and among them one at the second. -/
def twinPortOps : List Op :=
  [.createRootJob false, .createProcess 1024 Name.blank, .createJob 1024,
    .createProcess 1026 Name.blank, .openPort .job 7, .openPort .job 7, .bindPort 1024 4,
    .report 1025 4 0 true, .report 1025 3 1 true, .report 1025 4 2 true, .report 1027 4 3 true]

theorem Ran.resets_sound_of_twins :
    let w := run twinPortOps
    let left (refuses : Allocator) :=
      let r := w.system.resetPort refuses 1024 false
      (r.1, r.2.processes.toList.map fun p => (p.1, p.2.pending))
    ((∀ refuses k b, w.system.ResetSound refuses k b) ∧
      ∀ k x, .process x ∈ w.system.preorder true k ↔
        ∃ y, w.system.Reaches k y ∧ w.system.HasLive y (.process x)) ∧
    left .generous = (.ok true, [(1025, [⟨3, 1⟩]), (1027, [])]) ∧
    left (fun _ r => r.jobs = 0) =
      (.error .noMemory, [(1025, [⟨3, 1⟩]), (1027, [⟨4, 3⟩])]) := by
  have hran : Ran (fun _ _ => True) (run twinPortOps) := Ran.start.foldl (keep_any _ _)
  exact ⟨hran.resets_sound, by cbv, by cbv⟩

end World

end KernelObjects
