import KernelObjects.Proofs.Records

/-
# Policies are never undercut

A child starts with the policy of its job, and so does a process.  After that a policy only gains:
a request sets rules that nobody set before and leaves the others alone, and slack only grows
(`Policy.amend_inherits`, `Policy.widenSlack_inherits`).  A job whose policy changes has nobody
below it at that moment, since its lists are exact between operations.  So a job that has children
or running processes is frozen for as long as it has them, and what it says stays in force below
it.

To have nobody below it is what makes the invariant simple.  A request never has to be carried
down to children, because it is refused where there are any; so the relation between a job and its
child is set up at birth, and afterwards it is only the child that may gain.

The freeze is judged by the lists, and a client who takes a running process off its list by hand
makes a job look empty.  Lists must therefore be left alone here, while in other respects clients
may do what they like.
-/

namespace KernelObjects

/-! ## 1. Requests only add

A policy says all that another one says if it has all of its rules and no less slack.  That is a
preorder, so it carries over from a parent to whatever is below. -/

/-- **A policy says all that another one says**: what is explicit there is explicit here with the
same action, and there is no less slack. -/
structure Policy.Inherits (q p : Policy) : Prop where
  explicit : ∀ {c : Condition}, p.isExplicit c → q.isExplicit c ∧ q.action c = p.action c
  slack : p.slack.amount ≤ q.slack.amount

namespace Policy

variable {p q r : Policy}

theorem Inherits.refl (p : Policy) : p.Inherits p := ⟨fun h => ⟨h, rfl⟩, le_rfl⟩

/-- What is inherited is inherited by heirs of heirs. -/
theorem Inherits.trans (h : q.Inherits p) (h' : r.Inherits q) : r.Inherits p where
  explicit hc := by
    obtain ⟨hq, haction⟩ := h.explicit hc
    obtain ⟨hr, haction'⟩ := h'.explicit hq
    exact ⟨hr, haction'.trans haction⟩
  slack := h.slack.trans h'.slack

/-- A rule where there was none. -/
theorem set_inherits {c : Condition} (h : p.rule c = none) (a : Action) :
    (p.set c a).Inherits p where
  slack := le_rfl
  explicit := fun {d} hd => by
    have hne : d ≠ c := by
      rintro rfl
      rw [isExplicit, h] at hd
      cases hd
    have hrule : (p.set c a).rule d = p.rule d := by rw [rule_set, if_neg hne]
    unfold isExplicit action
    rw [hrule]
    exact ⟨hd, rfl⟩

/-- Where a rule is in the way, the request leaves it or fails, whatever the mode. -/
theorem request_inherits {mode : PolicyMode} {c : Condition} {a : Action}
    (h : p.request mode c a = .ok q) : q.Inherits p := by
  unfold request at h
  cases hrule : p.rule c with
  | none =>
    rw [hrule] at h
    cases h
    exact set_inherits hrule a
  | some b =>
    rw [hrule] at h
    dsimp only at h
    split at h
    · cases h
      exact .refl p
    · cases mode
      · cases h
        exact .refl p
      · cases h

/-- Steps that only add, one after the other. -/
theorem bind_inherits {f : Policy → Outcome Policy} {x : Outcome Policy}
    (hx : ∀ q, x = .ok q → q.Inherits p) (hf : ∀ q r, f q = .ok r → r.Inherits q)
    (h : x.bind f = .ok r) : r.Inherits p := by
  cases hq : x with
  | error e =>
    rw [hq] at h
    cases h
  | ok q =>
    rw [hq] at h
    exact (hx q hq).trans (hf q r h)

/-- A request about several conditions keeps each rule that is set, one after the other. -/
theorem requestAll_inherits {mode : PolicyMode} {a : Action} {cs : List Condition}
    (h : requestAll mode a cs p = .ok q) : q.Inherits p := by
  induction cs generalizing p q with
  | nil =>
    cases h
    exact .refl p
  | cons c cs ih =>
    rw [requestAll] at h
    exact bind_inherits (fun _ => request_inherits) (fun _ _ => ih) h

/-- An entry sets rules that were not set, or asks for what is set already, -/
theorem applyEntry_inherits {mode : PolicyMode} {e : PolicyEntry}
    (h : p.applyEntry mode e = .ok q) : q.Inherits p := by
  unfold applyEntry at h
  repeat' split at h
  · cases h
  · cases h
  · exact requestAll_inherits h

/-- and so does a list of entries. -/
theorem applyEntries_inherits {mode : PolicyMode} {es : List PolicyEntry}
    (h : applyEntries mode es p = .ok q) : q.Inherits p := by
  induction es generalizing p q with
  | nil =>
    cases h
    exact .refl p
  | cons e es ih =>
    rw [applyEntries] at h
    exact bind_inherits (fun _ => applyEntry_inherits) (fun _ _ => ih) h

/-- **A request keeps every rule and the slack.** -/
theorem amend_inherits {mode : Nat} {entries : List PolicyEntry}
    (h : p.amend mode entries = .ok q) : q.Inherits p := by
  unfold amend at h
  repeat' split at h
  · cases h
  · cases h
  · exact applyEntries_inherits h

/-- **A request for slack keeps every rule, and slack only grows.** -/
theorem widenSlack_inherits {amount : Int} {mode : Nat} (h : p.widenSlack amount mode = .ok q) :
    q.Inherits p := by
  unfold widenSlack at h
  repeat' split at h
  · cases h
  · cases h
  · cases h
    exact ⟨fun hc => ⟨hc, rfl⟩, le_max_left _ _⟩

/-- The two ways to ask for another policy. -/
inductive Asks : (Policy → Outcome Policy) → Prop
  | amend (mode : Nat) (entries : List PolicyEntry) : Asks fun p => p.amend mode entries
  | widenSlack (amount : Int) (mode : Nat) : Asks fun p => p.widenSlack amount mode

/-- A request that is granted yields an heir of the earlier policy: slack is only widened, rules are
only added. -/
theorem Asks.inherits {change : Policy → Outcome Policy} (h : Asks change)
    (hchange : change p = .ok q) : q.Inherits p := by
  cases h with
  | amend mode entries => exact amend_inherits hchange
  | widenSlack amount mode => exact widenSlack_inherits hchange

end Policy

/-! ## 2. What jobs say below them

The invariant is about records alone, where the policies of jobs and processes stand beside the
lists. -/

/-- **Nobody undercuts.**  Child jobs say all that their parents say, and running processes have the
policy of their job. -/
structure Records.Upheld (r : Records) : Prop where
  job : ∀ {k p : Koid} {j q : Job.Record}, r.job k = some j → j.parent = some p →
    r.job p = some q → j.policy.Inherits q.policy
  process : ∀ {k : Koid} {p : Process.Record} {j : Job.Record}, r.process k = some p →
    p.state = .running → r.job p.job = some j → p.policy = j.policy

namespace Records.Upheld

variable {r r' : Records}

/-- Who is left has the policy that it had. -/
theorem fades (h : r.Upheld) (hf : r.Fades r') : r'.Upheld where
  job hj hp hq := by
    obtain ⟨j, hj, hparent, hpolicy⟩ := hf.job hj
    obtain ⟨q, hq, -, hpolicy'⟩ := hf.job hq
    rw [hpolicy, hpolicy']
    exact h.job hj (hparent.symm.trans hp) hq
  process hp hrun hj := by
    obtain ⟨p, hp, hjob, -, hpolicy, hrun'⟩ := hf.process hp
    obtain ⟨j, hj, -, hpolicy'⟩ := hf.job hj
    rw [hpolicy, hpolicy']
    rw [hjob] at hj
    exact h.process hp (hrun' hrun) hj

/-- A new job has the policy of its parent, if it has one. -/
theorem setJob_new (h : r.Upheld) (ho : r.Old) {j : Job.Record}
    (hj : ∀ p q, j.parent = some p → r.job p = some q → j.policy = q.policy)
    (hown : j.parent ≠ some r.nextKoid) : (r.setJob r.nextKoid (some j)).Upheld where
  job := fun {k p i q} hi hp hq => by
    have hi : (if r.nextKoid = k then some j else r.job k) = some i := hi
    have hq : (if r.nextKoid = p then some j else r.job p) = some q := hq
    split at hi
    · cases hi
      have hne : r.nextKoid ≠ p := by
        rintro rfl
        exact hown hp
      rw [if_neg hne] at hq
      rw [hj p q hp hq]
      exact .refl _
    · have hne : r.nextKoid ≠ p := by
        rintro rfl
        exact ho.parent hi hp
      rw [if_neg hne] at hq
      exact h.job hi hp hq
  process := fun {k p q} hp hrun hq => by
    have hq : (if r.nextKoid = p.job then some j else r.job p.job) = some q := hq
    rw [if_neg (ho.job_process hp).symm] at hq
    exact h.process hp hrun hq

/-- A root inherits from nobody. -/
theorem rootBorn (h : r.Upheld) (ho : r.Old) (policy : Policy) : (r.rootBorn policy).Upheld :=
  have hnew := h.setJob_new ho (j := ⟨none, [], policy⟩) (by simp) (by simp)
  ⟨hnew.job, hnew.process⟩

/-- A child starts with the policy of its parent. -/
theorem childEntered (h : r.Upheld) (ho : r.Old) {p : Koid} {q : Job.Record}
    (hq : r.job p = some q) : (r.childEntered p q).Upheld := by
  have hnew := h.setJob_new ho (j := ⟨some p, [], q.policy⟩)
    (fun p' q' hp hq' => by
      cases hp
      rw [hq] at hq'
      cases hq'
      rfl)
    (fun he => Nat.lt_irrefl _ (Option.some.inj he ▸ ho.job hq))
  exact ⟨hnew.job, hnew.process⟩

/-- So does a process with that of its job, and keeps it. -/
theorem processBorn (h : r.Upheld) {job : Koid} {q : Job.Record} (hq : r.job job = some q)
    (table : TableId) : (r.processBorn job q table).Upheld where
  job := h.job
  process := fun {k p j} hp hrun hj => by
    have hp : (if r.nextKoid = k then some ⟨job, table, .running, q.policy⟩ else r.process k) =
      some p := hp
    have hj : r.job p.job = some j := hj
    split at hp
    · cases hp
      rw [hq] at hj
      cases hj
      rfl
    · exact h.process hp hrun hj

/-- Where nobody is below, a policy may gain. -/
theorem setPolicy (h : r.Upheld) {k : Koid} {j : Job.Record} {policy : Policy}
    (hj : r.job k = some j) (hjobs : ∀ c i, r.job c = some i → i.parent ≠ some k)
    (hprocesses : ∀ c p, r.process c = some p → p.state = .running → p.job ≠ k)
    (hpolicy : policy.Inherits j.policy) :
    (r.setJob k (some { j with policy })).Upheld where
  job := fun {c p i q} hi hp hq => by
    have hi : (if k = c then some { j with policy } else r.job c) = some i := hi
    have hq : (if k = p then some { j with policy } else r.job p) = some q := hq
    split at hi
    · cases hi
      have hne : k ≠ p := by
        rintro rfl
        exact hjobs _ _ hj hp
      rw [if_neg hne] at hq
      exact (h.job hj hp hq).trans hpolicy
    · have hne : k ≠ p := by
        rintro rfl
        exact hjobs _ _ hi hp
      rw [if_neg hne] at hq
      exact h.job hi hp hq
  process := fun {c p i} hp hrun hi => by
    have hi : (if k = p.job then some { j with policy } else r.job p.job) = some i := hi
    rw [if_neg (hprocesses _ _ hp hrun).symm] at hi
    exact h.process hp hrun hi

end Records.Upheld

/-! ## 3. Runs

On record are policies, lists and states, so it is openings and strikes again that have to keep
the invariant. -/

/-- Whether an operation leaves the lists of jobs alone and changes policies by the two requests
only. -/
def Op.AsksForPolicy : Op → Prop
  | attachProcess _ _ | detachProcess _ _ => False
  | amendPolicy _ change => Policy.Asks change
  | _ => True

/-- What asks for policies leaves lists of children alone. -/
theorem Op.AsksForPolicy.leavesLists {op : Op} (h : op.AsksForPolicy) : op.LeavesLists := by
  cases op <;> first | exact h.elim | trivial

namespace World

variable {w : World}

/-- So the tree is exact where policies are asked for. -/
theorem Ran.treeExact_of_asks (h : w.Ran fun _ => Op.AsksForPolicy) : w.system.TreeExact :=
  (h.mono fun _ _ => Op.AsksForPolicy.leavesLists).treeExact

/-- Below a job that lists nothing there is nobody. -/
theorem upheld_amendPolicy (h : w.Ran fun _ => Op.AsksForPolicy) {k : Koid} {j : Job}
    {policy : Policy} (hj : w.system.jobs[k]? = some j) (hempty : j.jobs = [] ∧ j.processes = [])
    (hpolicy : policy.Inherits j.policy) (hi : w.system.records.Upheld) :
    (w.system.records.setJob k (some { j.record with policy })).Upheld := by
  refine hi.setPolicy (System.job_record hj) (fun c i hc hp => ?_) (fun c p hp hrun hjob => ?_)
    hpolicy
  · obtain ⟨q, hq, rfl⟩ := Option.map_eq_some_iff.1 hc
    have hlisted : c ∈ j.jobs := (h.treeExact_of_asks.jobs hj c).2 ⟨q, hq, hp⟩
    rw [hempty.1] at hlisted
    cases hlisted
  · obtain ⟨q, hq, rfl⟩ := Option.map_eq_some_iff.1 hp
    have hlisted : c ∈ j.processes := (h.treeExact_of_asks.processes hj c).2 ⟨q, hq, hrun, hjob⟩
    rw [hempty.2] at hlisted
    cases hlisted

/-- **No opening undercuts.** -/
theorem Opening.upheld {op : Op} {v : World} (h : w.Ran fun _ => Op.AsksForPolicy)
    (hop : op.AsksForPolicy) (ho : w.Opening op v) (hi : w.system.records.Upheld) :
    v.system.records.Upheld := by
  have hold := h.passed.accounted.old
  cases ho with
  | none hv => exact hv ▸ hi
  | root hv => exact hv ▸ hi.rootBorn hold _
  | child hq hv => exact hv ▸ (hi.childEntered hold hq).fades (.relist _ _ _)
  | refused hq hv => exact hv ▸ (hi.childEntered hold hq).fades (.jobGone _ _ _)
  | process hq hv => exact hv ▸ hi.processBorn hq _
  | view hv => exact hv ▸ ⟨hi.job, hi.process⟩
  | witness hv => exact hv ▸ ⟨hi.job, hi.process⟩
  | table hv => exact hv ▸ ⟨hi.job, hi.process⟩
  | policy hj hempty hchange hv =>
    exact hv ▸ upheld_amendPolicy h hj hempty (Policy.Asks.inherits hop hchange) hi

theorem upheld_initial : System.initial.records.Upheld := by
  refine ⟨fun hj => ?_, fun hp => ?_⟩
  · rw [System.job_initial] at hj
    cases hj
  · rw [System.process_initial] at hp
    cases hp

/-- **Policies are upheld** along every such run: each operation makes heirs or leaves policies
alone. -/
theorem Ran.upheld (h : w.Ran fun _ => Op.AsksForPolicy) : w.system.records.Upheld :=
  h.keeps_recorded (I := fun w => w.system.records.Upheld) upheld_initial (fun _ _ _ _ hi => hi)
    (fun _ _ _ h hop ho hi => ho.upheld h hop hi) fun _ _ hs hi => hi.fades hs.fades

end World

/-! ## 4. In every run

At rest, inside of walks, and from one state of a run to a later one. -/

/-- **Inheritance of policies.**  Every job says all that its parent says, and running processes
have just the policy of their job. -/
structure System.PoliciesInherited (s : System) : Prop where
  parent : ∀ {k p : Nat} {j : Job}, s.jobs[k]? = some j → j.parent = some p →
    ∃ q, s.jobs[p]? = some q ∧ j.policy.Inherits q.policy
  process : ∀ {k : Nat} {p : Process}, s.processes[k]? = some p → p.state = .running →
    ∃ j, s.jobs[p.job]? = some j ∧ p.policy = j.policy

namespace World

variable {w : World}

/-- **Policies are inherited at rest**: now, and whenever a walk that starts now calls its visitor.
And whatever a job says now it says as long as it is there. -/
structure PoliciesSound (w : World) : Prop where
  now : w.system.PoliciesInherited
  walk : ∀ {σ : Type} {f : Visitor σ} {held : σ → List Task} {own : σ} {d : List Task},
    Leads (fun _ => Op.AsksForPolicy) held f → w.dues.Perm (held own ++ d) →
      ∀ (refuses : Allocator) (k : Koid) (deep : Bool),
        ∀ t ∈ (w.system.walk refuses k deep (noting f) (own, [])).2.2.2, t.PoliciesInherited
  eachVmo : ∀ {σ : Type} {f : VmoId → System → σ → Bool × System × σ} {held : σ → List Task}
    {own : σ} {d : List Task}, Leads (fun _ => Op.AsksForPolicy) held f →
      w.dues.Perm (held own ++ d) → ∀ enough : Nat → Bool,
        ∀ t ∈ (w.system.eachVmo enough (noting f) (own, [])).2.2.2, t.PoliciesInherited
  later : ∀ {ops : List Op} {k : Nat} {j j' : Job}, w.Keep (fun _ => Op.AsksForPolicy) ops →
    w.system.jobs[k]? = some j → (ops.foldl World.act w).system.jobs[k]? = some j' →
      j'.policy.Inherits j.policy

/-- In terms of the state: every job and process has a policy that inherits from its parent's. -/
theorem Ran.inherited (h : w.Ran fun _ => Op.AsksForPolicy) : w.system.PoliciesInherited where
  parent hj hp := by
    obtain ⟨q, hq⟩ := Store.contains_iff.1 (h.passed.accounted.parent hj hp)
    exact ⟨q, hq, h.upheld.job (System.job_record hj) hp (System.job_record hq)⟩
  process hp hrun := by
    obtain ⟨j, hj⟩ := Store.contains_iff.1 (h.passed.accounted.job hp)
    exact ⟨j, hj, h.upheld.process (System.process_record hp) hrun (System.job_record hj)⟩

/-- The same in every state that a walk comes by. -/
theorem Noted.inherited {σ : Type} {held : σ → List Task} {own : σ × List System}
    (h : Noted (fun _ => Op.AsksForPolicy) held w own) : ∀ t ∈ own.2, t.PoliciesInherited := by
  intro t ht
  obtain ⟨e, he⟩ := h.2 t ht
  exact he.inherited

/-- **In every run policies are inherited and never undercut**, as long as nobody enters a process
in a list by hand or takes one off. -/
theorem Ran.policies_sound (h : w.Ran fun _ => Op.AsksForPolicy) : w.PoliciesSound where
  now := h.inherited
  walk hf hperm refuses k deep := (h.walk_noted (P := fun _ => Op.AsksForPolicy)
    (fun _ _ => trivial) (fun _ _ => trivial) hf hperm refuses k deep).inherited
  eachVmo hf hperm enough := (h.eachVmo_noted (P := fun _ => Op.AsksForPolicy)
    (fun _ _ => trivial) (fun _ _ => trivial) hf hperm enough).inherited
  later := fun {ops k j j'} hops hj hj' => by
    have hstart : w.system.records.Retains k (·.Inherits j.policy) := by
      refine ⟨h.passed.accounted.job_lt hj, fun hi => ?_⟩
      rw [System.job_record hj] at hi
      cases hi
      exact .refl _
    have hend := h.retains (fun _ _ _ hasks _ _ hchange hp => hp.trans (hasks.inherits hchange))
      hops hstart
    exact hend.policy (System.job_record hj')

/-- A root denies bad handles.  Its child cannot lift that, adds a rule and slack of its own, and is
frozen when it has a process. -/
def inheritingOps : List Op :=
  [.createRootJob false, .amendPolicy 1024 fun p => p.amend 1 [.of .badHandle .deny],
    .createJob 1024,
    .amendPolicy 1025 fun p => p.amend 0 [.of .badHandle .allow, .of .wrongObject .kill],
    .amendPolicy 1025 fun p => p.widenSlack 50 2, .createProcess 1025 Name.blank,
    .amendPolicy 1025 fun p => p.amend 0 [.of .newVmo .kill]]

theorem Ran.policies_sound_of_inheriting :
    (run inheritingOps).PoliciesSound ∧
      (run inheritingOps).system.processes[1026]?.map (fun p => (p.state, p.policy.slack,
        p.policy.rule .badHandle, p.policy.rule .wrongObject, p.policy.rule .newVmo)) =
          some (.running, ⟨50, .late⟩, some .deny, some .kill, none) := by
  refine ⟨policies_sound (Ran.foldl .start ?_), by cbv⟩
  exact ⟨trivial, .amend _ _, trivial, .amend _ _, .widenSlack _ _, trivial, .amend _ _, trivial⟩

end World

end KernelObjects
