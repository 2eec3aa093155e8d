import Mathlib
import KernelObjects.Proofs.WalkLog
import KernelObjects.Proofs.Lineage

/-
# A walk is a preorder

The children of a job, in the order in which a recursion over the tree comes by them, are its live
processes and then its live child jobs, each followed by what is below it.  `System.preorder` is
this recursion.  The walk keeps a stack of levels instead and takes a snapshot of each level when
it gets there.  As long as the visitor leaves the tree alone the two agree
(`Ran.walk_is_preorder`), and where a visit breaks the walk off, or a snapshot is refused, the
sequence is cut just there.

**Why the heights do not show.**  The recursion needs a bound on the depth of the tree, and so
does the walk.  Whatever clients do, a child job that is listed and still there names its lister
as parent and has one generation less below it (`Lineage`), so the height of the start job bounds
both.

**How the two are compared.**  The recursion gives the whole sequence at once, and the walk may
end in the midst of it.  `Course` says what it is to go through a sequence with some calls and
some snapshots until one of them breaks it off; a part of the walk follows its part of the
sequence (`Follows`), parts are joined as the sequence is, and at the end a course is read as a
cut of the sequence (`Course.cuts`).  The calls are known from a log that the walk is made to
keep, which changes nothing else of it.

A process that a client lists by hand may stand in several lists, or in one list twice, and is
then visited as often.  Jobs enter lists only when they are created, and are visited once.
-/

namespace KernelObjects

/-! ## 1. The recursion

The recursion reads a single state.  What it comes by is said in terms of live children, since
lists may have entries of what is gone. -/

namespace System

/-- How many generations may be below a job. -/
def height (s : System) (k : Koid) : Nat := (s.jobs[k]?.map Job.maxHeight).getD 0

/-- What the recursion comes by below a job, so many generations down. -/
def preorderWithin (s : System) (deep : Bool) : (generations : Nat) → Koid → List Visit
  | 0, k => (s.liveChildren k).processes.map .process ++ (s.liveChildren k).jobs.map .job
  | n + 1, k =>
    (s.liveChildren k).processes.map .process ++ (s.liveChildren k).jobs.flatMap fun c =>
      .job c :: if deep then preorderWithin s deep n c else []

/-- **The children of a job in preorder**: its live processes, then its live child jobs, each
followed by what is below it if the recursion is deep. -/
def preorder (s : System) (deep : Bool) (k : Koid) : List Visit :=
  s.preorderWithin deep (s.height k) k

variable {s : System} {deep : Bool} {k c p : Koid}

/-- The snapshot has the listed jobs that are there, -/
theorem mem_liveChildren_jobs : c ∈ (s.liveChildren k).jobs ↔
    ∃ q j, s.jobs[k]? = some q ∧ c ∈ q.jobs ∧ s.jobs[c]? = some j := by
  unfold liveChildren
  cases hk : s.jobs[k]? with
  | none => simp
  | some q =>
    simp only [List.mem_filter, Store.contains_iff, Option.some.injEq, exists_and_left,
      exists_eq_left']

/-- and the listed processes that are. -/
theorem mem_liveChildren_processes : p ∈ (s.liveChildren k).processes ↔
    ∃ q r, s.jobs[k]? = some q ∧ p ∈ q.processes ∧ s.processes[p]? = some r := by
  unfold liveChildren
  cases hk : s.jobs[k]? with
  | none => simp
  | some q =>
    simp only [List.mem_filter, Store.contains_iff, Option.some.injEq, exists_and_left,
      exists_eq_left']

/-- A live child that a job lists. -/
def HasLive (s : System) (k : Koid) : Visit → Prop
  | .job c => c ∈ (s.liveChildren k).jobs
  | .process p => p ∈ (s.liveChildren k).processes

/-- From a job down to another one, from lister to live child job. -/
def Reaches (s : System) : Koid → Koid → Prop :=
  Relation.ReflTransGen fun k c => s.HasLive k (.job c)

end System

namespace Lineage

variable {s : System} {deep : Bool} {k c : Koid}

/-- In a tree the live children of a job are its children, no others. -/
theorem childOf (h : Lineage s) (hc : c ∈ (s.liveChildren k).jobs) : s.ChildOf k c := by
  obtain ⟨q, j, hq, hmem, hj⟩ := System.mem_liveChildren_jobs.1 hc
  exact ⟨j, hj, (h.child hq hmem hj).1⟩

/-- Each level is one lower than the one above. -/
theorem height_child (h : Lineage s) (hc : c ∈ (s.liveChildren k).jobs) :
    s.height k = s.height c + 1 := by
  obtain ⟨q, j, hq, hmem, hj⟩ := System.mem_liveChildren_jobs.1 hc
  unfold System.height
  rw [hq, hj]
  exact (h.child hq hmem hj).2

/-- Nobody is a child twice. -/
theorem nodup_liveChildren (h : Lineage s) (k : Koid) : (s.liveChildren k).jobs.Nodup := by
  unfold System.liveChildren
  cases hk : s.jobs[k]? with
  | none => exact List.nodup_nil
  | some q => exact (h.nodup hk).filter _

/-- **What is below a job in preorder**, level by level. -/
theorem preorder_eq (h : Lineage s) (k : Koid) :
    s.preorder deep k = (s.liveChildren k).processes.map .process ++
      (s.liveChildren k).jobs.flatMap fun c =>
        .job c :: if deep then s.preorder deep c else [] := by
  unfold System.preorder
  cases hk : s.height k with
  | zero =>
    have hnone : (s.liveChildren k).jobs = [] :=
      List.eq_nil_iff_forall_not_mem.2 fun c hc => by simp [h.height_child hc] at hk
    rw [System.preorderWithin, hnone]
    rfl
  | succ n =>
    rw [System.preorderWithin]
    congr 1
    refine List.flatMap_congr fun c hc => ?_
    have hc : s.height c = n := Nat.succ.inj ((h.height_child hc).symm.trans hk)
    rw [hc]

/-- What is reached is the start, or has fewer generations below it. -/
theorem height_reached (h : Lineage s) (hr : s.Reaches k c) : k = c ∨ s.height c < s.height k := by
  induction hr with
  | refl => exact .inl rfl
  | tail _ hstep ih =>
    have hlt := h.height_child hstep
    rcases ih with rfl | ih
    · exact .inr (by omega)
    · exact .inr (by omega)

/-- A job is reached from one of the jobs of a level only. -/
theorem sibling_unique (h : Lineage s) {a b : Koid} (ha : s.HasLive k (.job a))
    (hb : s.HasLive k (.job b)) (hac : s.Reaches a c) (hbc : s.Reaches b c) : a = b := by
  have hunique : Relator.RightUnique (Function.swap fun k c => s.HasLive k (.job c)) :=
    fun _ _ _ hx hy => (h.childOf hx).unique (h.childOf hy)
  have hlevel : s.height a = s.height b :=
    Nat.succ.inj ((h.height_child ha).symm.trans (h.height_child hb))
  rcases Relation.ReflTransGen.total_of_right_unique hunique hac.swap hbc.swap with hab | hba
  · exact ((h.height_reached hab.swap).resolve_right (by omega)).symm
  · exact (h.height_reached hba.swap).resolve_right (by omega)

/-- Everything in the recursion is the live child of a job that is reached. -/
theorem hasLive_of_mem_preorder (h : Lineage s) {v : Visit} (hv : v ∈ s.preorder deep k) :
    ∃ y, s.Reaches k y ∧ s.HasLive y v := by
  induction hn : s.height k generalizing k with
  | zero =>
    rw [h.preorder_eq, List.mem_append, List.mem_map, List.mem_flatMap] at hv
    rcases hv with ⟨p, hp, rfl⟩ | ⟨c, hc, -⟩
    · exact ⟨k, .refl, hp⟩
    · have := h.height_child hc
      omega
  | succ n ih =>
    rw [h.preorder_eq, List.mem_append, List.mem_map, List.mem_flatMap] at hv
    rcases hv with ⟨p, hp, rfl⟩ | ⟨c, hc, hv⟩
    · exact ⟨k, .refl, hp⟩
    rcases List.mem_cons.1 hv with rfl | hv
    · exact ⟨k, .refl, hc⟩
    split at hv
    · obtain ⟨y, hy, hshow⟩ := ih hv (Nat.succ.inj ((h.height_child hc).symm.trans hn))
      exact ⟨y, .head hc hy, hshow⟩
    · cases hv

/-- **Nothing comes twice** of what only one list names, and that once. -/
theorem nodup_filter_preorder (h : Lineage s) {Q : Visit → Bool}
    (hlister : ∀ v, Q v → ∀ x y, s.HasLive x v → s.HasLive y v → x = y)
    (honce : ∀ y, (((s.liveChildren y).processes.map Visit.process).filter Q).Nodup) (k : Koid) :
    ((s.preorder deep k).filter Q).Nodup := by
  induction hn : s.height k using Nat.strong_induction_on generalizing k with
  | _ n ih =>
    -- what stands in the block of a child job is the job itself or is reached from it
    have hblock : ∀ {c v}, s.HasLive k (.job c) →
        v ∈ (.job c :: if deep then s.preorder deep c else []) →
        v = .job c ∨ ∃ y, s.Reaches c y ∧ s.HasLive y v := by
      intro c v hc hv
      rcases List.mem_cons.1 hv with rfl | hv
      · exact .inl rfl
      split at hv
      · exact .inr (h.hasLive_of_mem_preorder hv)
      · cases hv
    have hnot : ∀ {c y : Koid}, s.HasLive k (.job c) → s.Reaches c y → k ≠ y := by
      rintro c y hc hy rfl
      have hlt := h.height_child hc
      rcases h.height_reached hy with rfl | hlt'
      · omega
      · omega
    rw [h.preorder_eq, List.filter_append, List.filter_flatMap, List.nodup_append]
    refine ⟨honce k, List.nodup_flatMap.2 ⟨fun c hc => ?_, ?_⟩, fun v hv u hu => ?_⟩
    · have hlt := h.height_child hc
      have hself : Visit.job c ∉ if deep then s.preorder deep c else [] := by
        intro hmem
        split at hmem
        · obtain ⟨y, hy, hshow⟩ := h.hasLive_of_mem_preorder hmem
          exact hnot hc hy ((h.childOf hc).unique (h.childOf hshow))
        · cases hmem
      have hrest : ((if deep then s.preorder deep c else []).filter Q).Nodup := by
        split
        · exact ih _ (by omega) c rfl
        · exact List.nodup_nil
      rw [List.filter_cons]
      split
      · exact List.nodup_cons.2 ⟨fun hmem => hself (List.mem_of_mem_filter hmem), hrest⟩
      · exact hrest
    · refine (h.nodup_liveChildren k).pairwise_of_forall_ne fun a ha b hb hne => ?_
      refine List.disjoint_left.2 fun v hva hvb => hne ?_
      obtain ⟨hva, hq⟩ := List.mem_filter.1 hva
      obtain ⟨hvb, -⟩ := List.mem_filter.1 hvb
      obtain rfl | ⟨x, hx, hxv⟩ := hblock ha hva
      · obtain he | ⟨y, hy, hyv⟩ := hblock hb hvb
        · cases he
          rfl
        · exact absurd (hlister _ hq k y ha hyv) (hnot hb hy)
      · obtain rfl | ⟨y, hy, hyv⟩ := hblock hb hvb
        · exact absurd (hlister _ hq k x hb hxv) (hnot ha hx)
        · obtain rfl := hlister v hq x y hxv hyv
          exact h.sibling_unique ha hb hx hy
    · rintro rfl
      obtain ⟨hv, hq⟩ := List.mem_filter.1 hv
      obtain ⟨p, hp, rfl⟩ := List.mem_map.1 hv
      obtain ⟨c, hc, hu⟩ := List.mem_flatMap.1 hu
      obtain he | ⟨y, hy, hyv⟩ := hblock hc (List.mem_of_mem_filter hu)
      · cases he
      · exact hnot hc hy (hlister _ hq k y hp hyv)

/-- **No job comes twice.** -/
theorem count_job_preorder_le (h : Lineage s) (k c : Koid) :
    (s.preorder deep k).count (.job c) ≤ 1 := by
  have hlister : ∀ v : Visit, decide (v = .job c) = true →
      ∀ x y, s.HasLive x v → s.HasLive y v → x = y := by
    intro v hv x y hx hy
    obtain rfl := of_decide_eq_true hv
    exact (h.childOf hx).unique (h.childOf hy)
  have honce : ∀ y, (((s.liveChildren y).processes.map Visit.process).filter
      fun v => decide (v = .job c)).Nodup := by
    intro y
    have hnone : ((s.liveChildren y).processes.map Visit.process).filter
        (fun v => decide (v = .job c)) = [] := by simp
    rw [hnone]
    exact List.nodup_nil
  have hnodup : ((s.preorder deep k).filter fun v => decide (v = .job c)).Nodup :=
    h.nodup_filter_preorder hlister honce k
  have hcount := List.nodup_iff_count_le_one.1 hnodup (.job c)
  rwa [List.count_filter (by simp)] at hcount

end Lineage

/-- **Nothing comes twice** if no list names a process twice, nor one of another job. -/
theorem ListedOnce.nodup_preorder {s : System} (h : ListedOnce s) (hl : Lineage s) (ht : JobTree s)
    (deep : Bool) (k : Koid) : (s.preorder deep k).Nodup := by
  have hjob : ∀ {x p : Koid}, s.HasLive x (.process p) →
      ∃ r, s.processes[p]? = some r ∧ r.job = x := by
    intro x p hx
    obtain ⟨q, r, hq, hp, hr⟩ := System.mem_liveChildren_processes.1 hx
    exact ⟨r, hr, ht.job hq hp hr⟩
  -- Two jobs that list the same child are one job: a child job has one parent, and a process is
  -- listed by the job that it names only.
  have hlister : ∀ v, true = true → ∀ x y, s.HasLive x v → s.HasLive y v → x = y := by
    intro v _ x y hx hy
    cases v with
    | job c => exact (hl.childOf hx).unique (hl.childOf hy)
    | process p =>
      obtain ⟨r, hr, rfl⟩ := hjob hx
      obtain ⟨r', hr', rfl⟩ := hjob hy
      rw [hr] at hr'
      cases hr'
      rfl
  have honce : ∀ y,
    (((s.liveChildren y).processes.map Visit.process).filter fun _ => true).Nodup := by
    intro y
    rw [List.filter_true]
    refine List.Nodup.map (fun _ _ he => Visit.process.inj he) ?_
    unfold System.liveChildren
    cases hy : s.jobs[y]? with
    | none => exact List.nodup_nil
    | some q => exact (h.nodup hy).filter _
  have hnodup : ((s.preorder deep k).filter fun _ => true).Nodup :=
    hl.nodup_filter_preorder hlister honce k
  rwa [List.filter_true] at hnodup

/-! ## 2. Following a sequence

How a walk goes through a sequence that is known beforehand, and where it can end. -/

/-- What the calls of a walk and its snapshots make of a sequence of visits: they go through it
until a call breaks off or a snapshot is refused.  A deep walk takes a snapshot of each job right
after visiting it. -/
inductive Course (s : System) (refuses : Allocator) (deep : Bool) : List SnapshotRequest →
    List Visit → List Call → WalkEnd → List SnapshotRequest → Prop
  | done {asked : List SnapshotRequest} : Course s refuses deep asked [] [] .finished asked
  | stop {asked : List SnapshotRequest} {c : Call} {vs : List Visit} (h : c.goesOn = false) :
      Course s refuses deep asked (c.visit :: vs) [c] .stopped asked
  /-- Nothing is below a process, and a walk that is not deep stays out of jobs. -/
  | pass {asked asked' : List SnapshotRequest} {c : Call} {vs : List Visit} {cs : List Call}
      {e : WalkEnd} (h : c.goesOn = true) (hp : ∀ j, c.visit = .job j → deep = false)
      (rest : Course s refuses deep asked vs cs e asked') :
      Course s refuses deep asked (c.visit :: vs) (c :: cs) e asked'
  | refuse {asked : List SnapshotRequest} {c : Call} {j : Koid} {vs : List Visit}
      (h : c.goesOn = true) (hj : c.visit = .job j) (hd : deep = true)
      (hr : refuses asked (s.snapshotRequest j) = true) :
      Course s refuses deep asked (c.visit :: vs) [c] .refused (s.snapshotRequest j :: asked)
  | enter {asked asked' : List SnapshotRequest} {c : Call} {j : Koid} {vs : List Visit}
      {cs : List Call} {e : WalkEnd} (h : c.goesOn = true) (hj : c.visit = .job j)
      (hd : deep = true) (hr : ¬ refuses asked (s.snapshotRequest j) = true)
      (rest : Course s refuses deep (s.snapshotRequest j :: asked) vs cs e asked') :
      Course s refuses deep asked (c.visit :: vs) (c :: cs) e asked'

namespace Course

variable {s : System} {refuses : Allocator} {deep : Bool} {asked asked' asked'' :
  List SnapshotRequest} {vs us : List Visit} {cs ds : List Call} {e : WalkEnd}

/-- A course that is over goes on with another one. -/
theorem append (h : Course s refuses deep asked vs cs .finished asked')
    (h' : Course s refuses deep asked' us ds e asked'') :
    Course s refuses deep asked (vs ++ us) (cs ++ ds) e asked'' := by
  generalize hf : WalkEnd.finished = x at h
  induction h with
  | done => exact h'
  | stop => cases hf
  | pass h hp _ ih => exact .pass h hp (ih h' hf)
  | refuse => cases hf
  | enter h hj hd hr _ ih => exact .enter h hj hd hr (ih h' hf)

/-- Where the walk broke off, it does not matter what would come next. -/
theorem cut (h : Course s refuses deep asked vs cs e asked') (he : e ≠ .finished)
    (us : List Visit) : Course s refuses deep asked (vs ++ us) cs e asked' := by
  induction h with
  | done => exact absurd rfl he
  | stop h => exact .stop h
  | pass h hp _ ih => exact .pass h hp (ih he)
  | refuse h hj hd hr => exact .refuse h hj hd hr
  | enter h hj hd hr _ ih => exact .enter h hj hd hr (ih he)

end Course

namespace System

/-- The requests for memory that a walk has made when it comes to the end of these visits and went
below what it visited, latest first. -/
def requests (s : System) (deep : Bool) (k : Koid) (vs : List Visit) : List SnapshotRequest :=
  (vs.filterMap fun
    | .job c => if deep then some (s.snapshotRequest c) else none
    | .process _ => none).reverse ++ [s.snapshotRequest k]

/-- Whether the snapshot that is due after these visits is refused: that of the start job if there
were none yet, that of the job visited last if the walk is deep. -/
def Denies (s : System) (refuses : Allocator) (deep : Bool) (k : Koid) (vs : List Visit) : Prop :=
  (vs = [] ∧ refuses [] (s.snapshotRequest k) = true) ∨
    ∃ us c, vs = us ++ [.job c] ∧ deep = true ∧
      refuses (s.requests deep k us) (s.snapshotRequest c) = true

end System

/-- How the calls of a walk cut a sequence of visits, and what the walk answers. -/
inductive Cuts (s : System) (refuses : Allocator) (deep : Bool) (k : Koid) (all : List Visit) :
    List Call → Outcome Bool → Prop
  /-- Everything was visited, and every snapshot was granted. -/
  | whole {cs : List Call} (hv : cs.map Call.visit = all) (hgo : ∀ c ∈ cs, c.goesOn = true)
      (hg : ∀ us, us <+: all → ¬ s.Denies refuses deep k us) :
      Cuts s refuses deep k all cs (.ok true)
  /-- The last call broke off. -/
  | stopped {cs : List Call} {c : Call} (hv : (cs ++ [c]).map Call.visit <+: all)
      (hgo : ∀ c ∈ cs, c.goesOn = true) (hstop : c.goesOn = false)
      (hg : ∀ us, us <+: cs.map Call.visit → ¬ s.Denies refuses deep k us) :
      Cuts s refuses deep k all (cs ++ [c]) (.ok false)
  /-- The snapshot after the last call was refused, or the first of all. -/
  | refused {cs : List Call} (hv : cs.map Call.visit <+: all) (hgo : ∀ c ∈ cs, c.goesOn = true)
      (hd : s.Denies refuses deep k (cs.map Call.visit))
      (hg : ∀ us, us <+: cs.map Call.visit → us ≠ cs.map Call.visit →
        ¬ s.Denies refuses deep k us) :
      Cuts s refuses deep k all cs (.error .noMemory)

section Cuts

variable {s : System} {refuses : Allocator} {deep : Bool} {k : Koid} {asked asked' :
  List SnapshotRequest} {vs us : List Visit} {cs ds : List Call} {e : WalkEnd} {v : Visit}

/-- The latest visit is denied its level if it goes below a job and the snapshot of that job is
refused. -/
theorem denies_concat : s.Denies refuses deep k (us ++ [v]) ↔
    ∃ c, v = .job c ∧ deep = true ∧
      refuses (s.requests deep k us) (s.snapshotRequest c) = true := by
  unfold System.Denies
  constructor
  · rintro (⟨hnil, -⟩ | ⟨ws, c, he, hd, hr⟩)
    · simp at hnil
    · obtain ⟨rfl, hlast⟩ := List.append_inj' he rfl
      exact ⟨c, List.cons.inj hlast |>.1, hd, hr⟩
  · rintro ⟨c, rfl, hd, hr⟩
    exact .inr ⟨us, c, rfl, hd, hr⟩

/-- If no earlier visit was denied and the latest is not, then none was. -/
theorem not_denies_concat (h : ∀ ws, ws <+: us → ¬ s.Denies refuses deep k ws)
    (hv : ¬ s.Denies refuses deep k (us ++ [v])) (ws : List Visit) (hws : ws <+: us ++ [v]) :
    ¬ s.Denies refuses deep k ws := by
  rcases List.prefix_concat_iff.1 hws with rfl | hws
  · exact hv
  · exact h ws hws

/-- A deep walk asks for the snapshot of each job that it visits, -/
theorem requests_job (hd : deep = true) (j : Koid) :
    s.requests deep k (us ++ [.job j]) = s.snapshotRequest j :: s.requests deep k us := by
  simp [System.requests, hd]

/-- and for none at other visits. -/
theorem requests_pass (hp : ∀ j, v = .job j → deep = false) :
    s.requests deep k (us ++ [v]) = s.requests deep k us := by
  cases v with
  | job j => simp [System.requests, hp j rfl]
  | process p => simp [System.requests]

/-- Who follows a sequence cuts it. -/
theorem Course.cuts (h : Course s refuses deep asked vs cs e asked') :
    ∀ ds : List Call, asked = s.requests deep k (ds.map Call.visit) →
      (∀ c ∈ ds, c.goesOn = true) →
      (∀ us, us <+: ds.map Call.visit → ¬ s.Denies refuses deep k us) →
      Cuts s refuses deep k (ds.map Call.visit ++ vs) (ds ++ cs) e.outcome := by
  have hmap : ∀ (ds : List Call) (c : Call),
      (ds ++ [c]).map Call.visit = ds.map Call.visit ++ [c.visit] := fun _ _ => List.map_append
  have hbegins : ∀ (us vs : List Visit) (v : Visit), us ++ [v] <+: us ++ v :: vs :=
    fun us vs v =>
      (List.prefix_append_right_inj _).2 (List.cons_prefix_cons.2 ⟨rfl, List.nil_prefix⟩)
  have hgoes : ∀ {ds : List Call} {c : Call}, (∀ c ∈ ds, c.goesOn = true) → c.goesOn = true →
      ∀ x ∈ ds ++ [c], x.goesOn = true := by
    intro ds c hds hc x hx
    rw [List.mem_append, List.mem_singleton] at hx
    rcases hx with hx | rfl
    · exact hds x hx
    · exact hc
  -- the induction is on the course, after the calls `ds` that came before it: no snapshot was
  -- refused up to there, and `asked` are the requests made so far
  induction h with
  | done =>
    intro ds ha hgo hg
    rw [List.append_nil, List.append_nil]
    exact .whole rfl hgo hg
  | stop h =>
    intro ds ha hgo hg
    exact .stopped (hmap _ _ ▸ hbegins _ _ _) hgo h hg
  | @pass asked asked' c vs cs e h hp _ ih =>
    intro ds ha hgo hg
    have hlater : asked = s.requests deep k ((ds ++ [c]).map Call.visit) := by
      rw [hmap, requests_pass hp, ha]
    have hgranted : ¬ s.Denies refuses deep k (ds.map Call.visit ++ [c.visit]) := by
      rw [denies_concat]
      rintro ⟨j, hj, hd, -⟩
      rw [hp j hj] at hd
      cases hd
    have hstep := ih _ hlater (hgoes hgo h) (hmap _ _ ▸ not_denies_concat hg hgranted)
    rwa [hmap, List.append_assoc, List.append_assoc] at hstep
  | @refuse asked c j vs h hj hd hr =>
    intro ds ha hgo hg
    refine .refused (hmap _ _ ▸ hbegins _ _ _) (hgoes hgo h) ?_ fun us hus hne => ?_
    · rw [hmap, denies_concat]
      exact ⟨j, hj, hd, ha ▸ hr⟩
    · rw [hmap] at hus hne
      exact hg us ((List.prefix_concat_iff.1 hus).resolve_left hne)
  | @enter asked asked' c j vs cs e h hj hd hr _ ih =>
    intro ds ha hgo hg
    have hlater : s.snapshotRequest j :: asked =
        s.requests deep k ((ds ++ [c]).map Call.visit) := by
      rw [hmap, hj, requests_job hd, ha]
    have hgranted : ¬ s.Denies refuses deep k (ds.map Call.visit ++ [c.visit]) := by
      rw [denies_concat]
      rintro ⟨i, hi, -, hdenied⟩
      rw [hj] at hi
      cases hi
      exact hr (ha ▸ hdenied)
    have hstep := ih _ hlater (hgoes hgo h) (hmap _ _ ▸ not_denies_concat hg hgranted)
    rwa [hmap, List.append_assoc, List.append_assoc] at hstep

end Cuts

/-! ## 3. The walk follows the recursion

The induction is on the generations that the walk may still go down.  Each level is shown for an
arbitrary stack outside of it, since what the walk holds of outer levels stands among the dues. -/

/-- Whether a job and what is reached from it look to a walk as they did. -/
def System.SameBelow (s : System) (k : Koid) (t : System) : Prop :=
  ∀ c, s.Reaches k c →
    t.liveChildren c = s.liveChildren c ∧ t.snapshotRequest c = s.snapshotRequest c

namespace Walk

variable {σ : Type} {f : Visitor σ} {s : System} {refuses : Allocator} {deep : Bool} {k j : Koid}
  {vs : List Visit}

/-- What a part of a walk did was to follow a sequence. -/
def Follows (s : System) (refuses : Allocator) (deep : Bool) (w : Walk (σ × List Call))
    (vs : List Visit) (e : WalkEnd) (v : Walk (σ × List Call)) : Prop :=
  v.supply.refuses = refuses ∧ ∃ cs, v.own.2 = w.own.2 ++ cs ∧
    Course s refuses deep w.supply.asked vs cs e v.supply.asked

/-- Walks that follow courses can be joined, as long as the first is not broken off. -/
theorem Follows.append {w v u : Walk (σ × List Call)} {us : List Visit} {e : WalkEnd}
    (h : Follows s refuses deep w vs .finished v) (h' : Follows s refuses deep v us e u) :
    Follows s refuses deep w (vs ++ us) e u := by
  obtain ⟨-, cs, hcs, hcourse⟩ := h
  obtain ⟨hr, ds, hds, hcourse'⟩ := h'
  exact ⟨hr, cs ++ ds, by rw [hds, hcs, List.append_assoc], hcourse.append hcourse'⟩

/-- After an early end nothing more is visited, whatever was still ahead. -/
theorem Follows.cut {w v : Walk (σ × List Call)} {e : WalkEnd}
    (h : Follows s refuses deep w vs e v) (he : e ≠ .finished) (us : List Visit) :
    Follows s refuses deep w (vs ++ us) e v := by
  obtain ⟨hr, cs, hcs, hcourse⟩ := h
  exact ⟨hr, cs, hcs, hcourse.cut he us⟩

/-- A visit that breaks off ends any sequence that begins with it. -/
theorem stopped_follows {w v : Walk (σ × List Call)} {a : Visit} (hw : w.supply.refuses = refuses)
    (hv : w.visit (logging f) a = (false, v)) (vs : List Visit) :
    Follows s refuses deep w (a :: vs) .stopped v := by
  obtain ⟨c, rfl, hgo, -, hsupply, hlog⟩ := call_of_visit hv
  refine ⟨hsupply ▸ hw, [c], hlog, ?_⟩
  rw [hsupply]
  exact .stop hgo

/-- The processes of a level are visited in order until a visit stops the walk. -/
theorem visitProcesses_follows (ps : List Koid) {w : Walk (σ × List Call)}
    (hw : w.supply.refuses = refuses) :
    Follows s refuses deep w (ps.map .process)
      (if (visitProcesses (logging f) ps w).1 then .finished else .stopped)
      (visitProcesses (logging f) ps w).2 := by
  induction ps generalizing w with
  | nil => exact ⟨hw, [], (List.append_nil _).symm, .done⟩
  | cons p ps ih =>
    rw [visitProcesses]
    cases hv : w.visit (logging f) (.process p) with
    | mk goesOn v =>
      cases goesOn with
      | false => exact stopped_follows hw hv _
      | true =>
        obtain ⟨c, hp, hgo, -, hsupply, hlog⟩ := call_of_visit hv
        obtain ⟨hrefuses, cs, hcs, hcourse⟩ := ih (hsupply ▸ hw)
        refine ⟨hrefuses, c :: cs, by rw [hcs, hlog, ← List.append_cons], ?_⟩
        rw [hsupply] at hcourse
        rw [List.map_cons, ← hp]
        exact .pass hgo (by simp [hp]) hcourse

/-- What came of a level: its snapshot was refused, or its processes were visited. -/
inductive Entered (s : System) (refuses : Allocator) (deep : Bool) (w : Walk (σ × List Call))
    (j : Koid) : Except WalkEnd (List Koid) × Walk (σ × List Call) → Prop
  | refused {v : Walk (σ × List Call)} (hr : refuses w.supply.asked (s.snapshotRequest j) = true)
      (hv : v.supply = ⟨refuses, s.snapshotRequest j :: w.supply.asked⟩)
      (hown : v.own = w.own) : Entered s refuses deep w j (.error .refused, v)
  | stopped {u v : Walk (σ × List Call)}
      (hr : ¬ refuses w.supply.asked (s.snapshotRequest j) = true)
      (hu : u.supply = ⟨refuses, s.snapshotRequest j :: w.supply.asked⟩) (hown : u.own = w.own)
      (h : Follows s refuses deep u ((s.liveChildren j).processes.map .process) .stopped v) :
      Entered s refuses deep w j (.error .stopped, v)
  | reached {u v : Walk (σ × List Call)}
      (hr : ¬ refuses w.supply.asked (s.snapshotRequest j) = true)
      (hu : u.supply = ⟨refuses, s.snapshotRequest j :: w.supply.asked⟩) (hown : u.own = w.own)
      (h : Follows s refuses deep u ((s.liveChildren j).processes.map .process) .finished v) :
      Entered s refuses deep w j (.ok (s.liveChildren j).jobs, v)

/-- What comes of reaching a level, if the children are still those that they were at the start. -/
theorem enter_entered {w : Walk (σ × List Call)} (hw : w.supply.refuses = refuses)
    (hlive : w.system.liveChildren j = s.liveChildren j)
    (hask : w.system.snapshotRequest j = s.snapshotRequest j) :
    Entered s refuses deep w j (w.enter (logging f) j) := by
  unfold enter System.snapshot
  dsimp only
  rw [hw, hlive, hask]
  by_cases hr : refuses w.supply.asked (s.snapshotRequest j) = true
  · rw [if_pos hr]
    refine .refused hr ?_ rfl
    rw [← hw]
  · rw [if_neg hr]
    dsimp only
    -- What the level reads of the state after the snapshot is its supply and its notes, so the
    -- rest is put out of sight.
    generalize hu : ({
      system := (w.system.retainAll ((s.liveChildren j).processes.map Ref.object)).retainAll
        ((s.liveChildren j).jobs.map Ref.object)
      supply := ⟨refuses, s.snapshotRequest j :: w.supply.asked⟩
      own := w.own } : Walk (σ × List Call)) = u
    have hsupply : u.supply = ⟨refuses, s.snapshotRequest j :: w.supply.asked⟩ := by rw [← hu]
    have hown : u.own = w.own := by rw [← hu]
    have hvisits : Follows s refuses deep u ((s.liveChildren j).processes.map .process) _ _ :=
      visitProcesses_follows (f := f) (s.liveChildren j).processes (congrArg Supply.refuses hsupply)
    generalize visitProcesses (logging f) (s.liveChildren j).processes u = r at hvisits ⊢
    obtain ⟨goesOn, v⟩ := r
    cases goesOn with
    | true => exact .reached hr hsupply hown hvisits
    | false => exact .stopped hr hsupply hown hvisits

/-- What came of a level and all that is below it: its snapshot was refused, or it was followed. -/
inductive Level (s : System) (refuses : Allocator) (deep : Bool) (w : Walk (σ × List Call))
    (j : Koid) (vs : List Visit) : WalkEnd → Walk (σ × List Call) → Prop
  | refused {v : Walk (σ × List Call)} (hr : refuses w.supply.asked (s.snapshotRequest j) = true)
      (hv : v.supply = ⟨refuses, s.snapshotRequest j :: w.supply.asked⟩)
      (hown : v.own = w.own) : Level s refuses deep w j vs .refused v
  | reached {u v : Walk (σ × List Call)} {e : WalkEnd}
      (hr : ¬ refuses w.supply.asked (s.snapshotRequest j) = true)
      (hu : u.supply = ⟨refuses, s.snapshotRequest j :: w.supply.asked⟩) (hown : u.own = w.own)
      (h : Follows s refuses deep u vs e v) : Level s refuses deep w j vs e v

/-- What came of going below a job: a walk that is not deep stayed out. -/
inductive Branch (s : System) (refuses : Allocator) (deep : Bool) (w : Walk (σ × List Call))
    (j : Koid) : List Visit → WalkEnd → Walk (σ × List Call) → Prop
  | out {v : Walk (σ × List Call)} (hd : deep = false) (hv : v.supply = w.supply)
      (hown : v.own = w.own) : Branch s refuses deep w j [] .finished v
  | level {v : Walk (σ × List Call)} {vs : List Visit} {e : WalkEnd} (hd : deep = true)
      (h : Level s refuses deep w j vs e v) : Branch s refuses deep w j vs e v

/-- A job is visited, and then what is below it. -/
theorem Branch.follows {w v u : Walk (σ × List Call)} {e : WalkEnd}
    (hw : w.supply.refuses = refuses) (hv : w.visit (logging f) (.job j) = (true, v))
    (h : Branch s refuses deep v j vs e u) : Follows s refuses deep w (.job j :: vs) e u := by
  obtain ⟨c, hj, hgo, -, hsupply, hlog⟩ := call_of_visit hv
  rw [← hj]
  cases h with
  | out hd hu hown =>
    refine ⟨by rw [hu, hsupply, hw], [c], by rw [hown, hlog], ?_⟩
    rw [hu, hsupply]
    exact .pass hgo (fun _ _ => hd) .done
  | level hd h =>
    cases h with
    | refused hr hu hown =>
      refine ⟨by rw [hu], [c], by rw [hown, hlog], ?_⟩
      rw [hu, hsupply]
      exact .refuse hgo hj hd (hsupply ▸ hr)
    | reached hr hu hown hfollows =>
      obtain ⟨hrefuses, cs, hcs, hcourse⟩ := hfollows
      refine ⟨hrefuses, c :: cs, by rw [hcs, hown, hlog, ← List.append_cons], ?_⟩
      rw [hu, hsupply] at hcourse
      exact .enter hgo hj hd (hsupply ▸ hr) hcourse

/-- All calls so far have left the tree alone. -/
def Quiet (s : System) (k : Koid) (w : Walk (σ × List Call)) : Prop :=
  ∀ c ∈ w.own.2, s.SameBelow k c.after

/-- A shorter log is quiet if the whole one is. -/
theorem Quiet.of_prefix {w v : Walk (σ × List Call)} (h : Quiet s k v)
    (hp : w.own.2 <+: v.own.2) : Quiet s k w := fun c hc => h c (hp.subset hc)

/-- Going below the jobs `J` follows `branch`, as long as the tree is left alone. -/
structure Goes (s : System) (refuses : Allocator) (deep : Bool) (k : Koid) (J : Koid → Prop)
    (branch : Koid → List Visit)
    (below : List Koid → Koid → Walk (σ × List Call) → WalkEnd × Walk (σ × List Call)) :
    Prop where
  grows : ∀ l, Below (fun _ own => l <+: own.2) below
  goes : ∀ outer j w, J j → w.supply.refuses = refuses → s.SameBelow k w.system →
    Quiet s k (below outer j w).2 →
      Branch s refuses deep w j (branch j) (below outer j w).1 (below outer j w).2

variable {J : Koid → Prop} {branch : Koid → List Visit}
  {below : List Koid → Koid → Walk (σ × List Call) → WalkEnd × Walk (σ × List Call)}

/-- Calls are only added to the log. -/
theorem visitJobs_grows (hb : ∀ l, Below (fun _ own => l <+: own.2) below) (outer js : List Koid)
    (w : Walk (σ × List Call)) : w.own.2 <+: (visitJobs (logging f) below outer js w).2.own.2 :=
  visitJobs_keeps (logging_keeps (f := f) w.own.2) (hb _) outer js w [] (List.prefix_refl _)

/-- The jobs of a level are visited in order, and what lies below each follows before the next.
Induction on the jobs still to come, with the course below a job given by `hb`. -/
theorem visitJobs_follows (hb : Goes s refuses deep k J branch below) (outer js : List Koid)
    (hjs : ∀ j ∈ js, J j) {w : Walk (σ × List Call)} (hw : w.supply.refuses = refuses)
    (hquiet : Quiet s k (visitJobs (logging f) below outer js w).2) :
    Follows s refuses deep w (js.flatMap fun j => .job j :: branch j)
      (visitJobs (logging f) below outer js w).1 (visitJobs (logging f) below outer js w).2 := by
  induction js generalizing w with
  | nil => exact ⟨hw, [], (List.append_nil _).symm, .done⟩
  | cons j js ih =>
    rw [List.flatMap_cons]
    rw [visitJobs] at hquiet ⊢
    cases hv : w.visit (logging f) (.job j) with
    | mk goesOn v =>
      cases goesOn with
      | false => exact stopped_follows hw hv _
      | true =>
        rw [hv] at hquiet
        dsimp only at hquiet ⊢
        obtain ⟨c, -, -, hafter, hsupply, hlog⟩ := call_of_visit hv
        have hc : c ∈ v.own.2 := hlog ▸ List.mem_append_right _ (List.mem_singleton_self _)
        have hgrown := hb.grows v.own.2 (outer ++ js) j v [] (List.prefix_refl _)
        have hbranch := hb.goes (outer ++ js) j v (hjs j List.mem_cons_self) (hsupply ▸ hw)
        cases hu : below (outer ++ js) j v with
        | mk e u =>
          rw [hu] at hquiet hgrown hbranch
          -- the notes of the visit are among those at the end
          have hend : Quiet s k u → Branch s refuses deep v j (branch j) e u := fun hq =>
            hbranch (hafter ▸ hq c (hgrown.subset hc)) hq
          cases e with
          | finished =>
            have hq : Quiet s k u := hquiet.of_prefix (visitJobs_grows hb.grows outer js u)
            have hfirst := (hend hq).follows hw hv
            exact hfirst.append (ih (fun i hi => hjs i (List.mem_cons_of_mem _ hi)) hfirst.1 hquiet)
          | stopped => exact ((hend hquiet).follows hw hv).cut (by simp) _
          | refused => exact ((hend hquiet).follows hw hv).cut (by simp) _

/-- **Reaching a level and walking on there follows what is below the job.**  On the way the walk
gives back what it does not need any more. -/
theorem level_follows (hb : Goes s refuses deep k J branch below) (outer : List Koid)
    {w : Walk (σ × List Call)} (hw : w.supply.refuses = refuses) (hj : s.Reaches k j)
    (hsame : s.SameBelow k w.system) (hJ : ∀ c ∈ (s.liveChildren j).jobs, J c)
    (give give' : Walk (σ × List Call) → Walk (σ × List Call))
    (hgive : ∀ v, (give v).supply = v.supply ∧ (give v).own = v.own)
    (hgive' : ∀ v, (give' v).supply = v.supply ∧ (give' v).own = v.own)
    {r : WalkEnd × Walk (σ × List Call)}
    (hr : r = match w.enter (logging f) j with
      | (.error e, v) => (e, give v)
      | (.ok jobs, v) => visitJobs (logging f) below outer jobs (give' v))
    (hquiet : Quiet s k r.2) :
    Level s refuses deep w j ((s.liveChildren j).processes.map .process ++
      (s.liveChildren j).jobs.flatMap fun c => .job c :: branch c) r.1 r.2 := by
  subst hr
  obtain ⟨hlive, hask⟩ := hsame j hj
  have hentered : Entered s refuses deep w j (w.enter (logging f) j) := enter_entered hw hlive hask
  generalize w.enter (logging f) j = r at hentered hquiet ⊢
  -- Refused and stopped end the walk, and what it gives back then is not read any more.  If the
  -- level is reached, its jobs follow on its processes.
  cases hentered with
  | @refused v hr hv hown =>
    exact .refused hr ((hgive v).1.trans hv) ((hgive v).2.trans hown)
  | @stopped u v hr hu hown h =>
    refine .reached hr hu hown ?_
    have hcut := h.cut (by simp) ((s.liveChildren j).jobs.flatMap fun c => .job c :: branch c)
    unfold Follows at hcut ⊢
    rwa [(hgive v).1, (hgive v).2]
  | @reached u v hr hu hown h =>
    refine .reached hr hu hown ?_
    have hstart : Follows s refuses deep u ((s.liveChildren j).processes.map .process) .finished
        (give' v) := by
      unfold Follows at h ⊢
      rwa [(hgive' v).1, (hgive' v).2]
    exact hstart.append (visitJobs_follows hb outer _ hJ hstart.1 hquiet)

/-- A walk that is not deep has nothing below the jobs that it visits. -/
theorem goes_stay (hd : ∀ j, J j → deep = false) (hbranch : ∀ j, J j → branch j = []) :
    Goes s refuses deep k J branch (stay (σ := σ × List Call)) where
  grows l := stay_below (f := logging fun _ s own => (true, s, own)) (logging_keeps l)
  goes outer j w hj _ _ _ := by
    rw [hbranch j hj]
    exact .out (hd j hj) rfl rfl

/-- **A deep walk goes below a job as the recursion does**, if it may go down far enough. -/
theorem goes_descend (h : Lineage s) (hd : deep = true) (levels : Nat) :
    Goes s refuses deep k (fun j => s.Reaches k j ∧ s.height j ≤ levels)
      (fun c => if deep then s.preorder deep c else []) (descend (logging f) levels) where
  grows l := descend_below (logging_keeps (f := f) l) levels
  goes := by
    have hgive : ∀ (ks : List Koid) (v : Walk (σ × List Call)),
        (v.giveBack ks).supply = v.supply ∧ (v.giveBack ks).own = v.own := fun _ _ => ⟨rfl, rfl⟩
    -- As in the walk itself: a bound of zero is enough where nothing is below, and a child has
    -- one level less to go.
    induction levels with
    | zero =>
      intro outer j w hj hw hsame hquiet
      rw [if_pos hd, h.preorder_eq]
      have hnone : ∀ c ∈ (s.liveChildren j).jobs, False := fun c hc => by
        have := h.height_child hc
        omega
      refine .level hd (level_follows (f := f) (goes_stay (J := fun _ => False) (fun _ h => h.elim)
        fun _ h => h.elim) outer hw hj.1 hsame hnone _ _ (hgive (j :: outer)) (hgive [j]) ?_ hquiet)
      unfold descend
      generalize w.enter (logging f) j = r
      obtain ⟨e | jobs, v⟩ := r <;> rfl
    | succ n ih =>
      intro outer j w hj hw hsame hquiet
      rw [if_pos hd, h.preorder_eq]
      have hJ : ∀ c ∈ (s.liveChildren j).jobs, s.Reaches k c ∧ s.height c ≤ n := fun c hc => by
        have := h.height_child hc
        exact ⟨hj.1.tail hc, by omega⟩
      refine .level hd
        (level_follows (f := f) ⟨fun l => descend_below (logging_keeps l) n, ih⟩ outer
        hw hj.1 hsame hJ _ _ (hgive (j :: outer)) (hgive [j]) ?_ hquiet)
      unfold descend
      generalize w.enter (logging f) j = r
      obtain ⟨e | jobs, v⟩ := r <;> rfl

end Walk

/-- A level at the start cuts what is to be followed. -/
theorem Walk.Level.cuts {σ : Type} {s : System} {refuses : Allocator} {deep : Bool} {k : Koid}
    {w v : Walk (σ × List Call)} {vs : List Visit} {e : WalkEnd}
    (h : Level s refuses deep w k vs e v) (hasked : w.supply.asked = []) (hown : w.own.2 = []) :
    Cuts s refuses deep k vs v.own.2 e.outcome := by
  cases h with
  | refused hr hv hv' =>
    rw [hv', hown]
    refine .refused List.nil_prefix (by simp) (.inl ⟨rfl, hasked ▸ hr⟩) fun us hus hne => ?_
    exact absurd (List.prefix_nil.1 hus) hne
  | @reached u v e hr hu hu' h =>
    obtain ⟨-, cs, hcs, hcourse⟩ := h
    rw [hcs, hu', hown]
    refine Course.cuts hcourse [] ?_ (by simp) fun us hus => ?_
    · rw [hu, hasked]
      rfl
    · obtain rfl := List.prefix_nil.1 hus
      rintro (⟨-, hdenied⟩ | ⟨ws, c, he, -⟩)
      · exact hr (hasked ▸ hdenied)
      · simp at he

/-- **As long as the calls leave the tree alone, a walk cuts the preorder.** -/
theorem System.walk_cuts {σ : Type} {s : System} (h : Lineage s) (refuses : Allocator) (k : Koid)
    (deep : Bool) (f : Visitor σ) (own : σ)
    (hquiet : ∀ c ∈ (s.walk refuses k deep (Walk.logging f) (own, [])).2.2.2,
      s.SameBelow k c.after) :
    Cuts s refuses deep k (s.preorder deep k)
      (s.walk refuses k deep (Walk.logging f) (own, [])).2.2.2
      (s.walk refuses k deep (Walk.logging f) (own, [])).1.outcome := by
  let below := if deep then Walk.descend (Walk.logging f) (s.height k) else Walk.stay
  -- The walk is a level like any other, below the job that it starts at, and gives nothing back
  -- at the end.
  obtain ⟨r, hr⟩ : ∃ r, r = match Walk.enter ⟨s, ⟨refuses, []⟩, (own, [])⟩ (Walk.logging f) k with
    | (.error e, v) => (e, v)
    | (.ok jobs, v) => Walk.visitJobs (Walk.logging f) below [] jobs v := ⟨_, rfl⟩
  have hwalk : s.walk refuses k deep (Walk.logging f) (own, []) = (r.1, r.2.system, r.2.own) := by
    refine System.walk_eq s refuses k deep (Walk.logging f) (own, []) ?_
    rw [hr]
    generalize Walk.enter _ (Walk.logging f) k = x
    obtain ⟨e | jobs, v⟩ := x <;> rfl
  rw [hwalk] at hquiet ⊢
  have hgoes : Walk.Goes s refuses deep k (fun c => s.Reaches k c ∧ s.height c ≤ s.height k)
      (fun c => if deep then s.preorder deep c else []) below := by
    by_cases hd : deep = true
    · have hbelow : below = Walk.descend (Walk.logging f) (s.height k) := if_pos hd
      rw [hbelow]
      exact Walk.goes_descend h hd _
    · have hbelow : below = Walk.stay := if_neg hd
      rw [hbelow]
      exact Walk.goes_stay (fun _ _ => Bool.eq_false_of_not_eq_true hd) fun _ _ => if_neg hd
  have hJ : ∀ c ∈ (s.liveChildren k).jobs, s.Reaches k c ∧ s.height c ≤ s.height k :=
    fun c hc => ⟨.single hc, by have := h.height_child hc; omega⟩
  have hlevel := Walk.level_follows (f := f) hgoes [] rfl .refl (fun _ _ => ⟨rfl, rfl⟩) hJ id id
    (fun _ => ⟨rfl, rfl⟩) (fun _ => ⟨rfl, rfl⟩) hr hquiet
  rw [← h.preorder_eq] at hlevel
  exact hlevel.cuts rfl rfl

/-! ## 4. Visitors that change nothing

A walk holds what it has still to visit, which changes counts of references and nothing that is
read.  So the tree that it goes by is that of the start. -/

/-- What a walk does by itself to a state: references to things that are there are lent. -/
structure Lent (s : System) (w : World) : Prop where
  same : w.system = { s with refs := w.system.refs }
  count : ∀ r, w.system.refCount r = s.refCount r + owed w.dues r
  dues : ∀ t ∈ w.dues, ∃ r, t = .release r ∧ 0 < s.refCount r

namespace Lent

variable {s : System} {d : List Task}

/-- What is lent is there all the while. -/
theorem present {w : World} (h : Lent s w) (r : Ref) : w.system.Present r ↔ s.Present r := by
  rw [h.same]
  exact Iff.rfl

/-- To hold something more and to give it back changes nothing that the walk reads: what it holds
keeps alive what it goes by. -/
theorem lending (hacc : Accounted s d) : World.Lending (Lent s) where
  reorder hperm h :=
    ⟨h.same, fun r => (h.count r).trans (congrArg _ (owed_perm hperm r)),
      fun t ht => h.dues t (hperm.mem_iff.2 ht)⟩
  share := by
    intro t e r hr h
    refine ⟨congrArg (fun u : System => u.retain r) h.same, fun q => ?_, fun x hx => ?_⟩
    · have hcount : t.refCount q = s.refCount q + owed e q := h.count q
      refine (RefCounts.count_retain t.refs r q).trans ?_
      unfold System.refCount at hcount ⊢
      rw [owed_cons, Task.holds]
      split <;> omega
    · rcases List.mem_cons.1 hx with rfl | hx
      · exact ⟨r, rfl, (hacc.present r).1 ((h.present r).1 hr)⟩
      · exact h.dues x hx
  -- What the walk gives back was not the only reference to it: the one that kept it alive before
  -- is still there.
  release := by
    intro t e r h
    obtain ⟨q, hq, hpos⟩ := h.dues _ List.mem_cons_self
    cases hq
    have hcount : ∀ q, t.refCount q = s.refCount q + ((if r = q then 1 else 0) + owed e q) :=
      fun q => (h.count q).trans (congrArg _ (owed_cons _ _ q))
    have hmany : 1 < t.refCount r := by
      have hr := hcount r
      rw [if_pos rfl] at hr
      omega
    rw [System.release_of_many hmany]
    refine ⟨congrArg (fun u : System => { u with refs := t.refs.release r }) h.same, fun q => ?_,
      fun x hx => h.dues x (List.mem_cons_of_mem _ hx)⟩
    refine (RefCounts.count_release t.refs r q).trans ?_
    have hq := hcount q
    show _ = s.refCount q + owed e q
    unfold System.refCount at hq ⊢
    split
    · rename_i he
      rw [if_pos he] at hq
      omega
    · rename_i he
      rw [if_neg he] at hq
      omega

/-- The tree below a job is as it was at the start. -/
theorem sameBelow {w : World} (h : Lent s w) (k : Koid) : s.SameBelow k w.system := by
  rw [h.same]
  exact fun _ _ => ⟨rfl, rfl⟩

end Lent

/-- The calls of a visitor that changes nothing find the tree as it was. -/
theorem Accounted.sameBelow_of_idle {σ : Type} {s : System} {d : List Task} (hacc : Accounted s d)
    {f : Visitor σ} (hf : ∀ v t own, (f v t own).2.1 = t) (refuses : Allocator) (k : Koid)
    (deep : Bool) (own : σ) :
    ∀ c ∈ (s.walk refuses k deep (Walk.logging f) (own, [])).2.2.2, s.SameBelow k c.after := by
  have hkeeps : Walk.Keeps (Walk.logging f) fun w (mine : σ × List Call) =>
      Lent s w ∧ ∀ c ∈ mine.2, s.SameBelow k c.after :=
    { lending := fun mine =>
        { reorder := fun hp h => ⟨(Lent.lending hacc).reorder hp h.1, h.2⟩
          share := fun hr h => ⟨(Lent.lending hacc).share hr h.1, h.2⟩
          release := fun h => ⟨(Lent.lending hacc).release h.1, h.2⟩ }
      visit := by
        intro v t mine e h
        have hsame : (Walk.logging f v t mine).2.1 = t := hf v t mine.1
        rw [hsame]
        refine ⟨h.1, fun c hc => ?_⟩
        rcases List.mem_append.1 hc with hc | hc
        · exact h.2 c hc
        · obtain rfl := List.mem_singleton.1 hc
          exact (hf v t mine.1).symm ▸ h.1.sameBelow k }
  have hstart : Lent s ⟨s, []⟩ := ⟨rfl, fun _ => rfl, by simp⟩
  exact (System.walk_keeps hkeeps s refuses k deep (own, []) [] ⟨hstart, by simp⟩).2

/-! ## 5. Walks in every run

The conditions of the lemmas above, read off a state that operations lead to. -/

namespace World

/-- **A walk is a preorder**, in every state that operations lead to, from every job, for every
allocator and every visitor.  If all calls leave the tree below the start job as it was, the calls
go through the preorder until one of them breaks off or a snapshot is refused, and the answer says
which of it happened.  A visitor that changes nothing leaves the tree as it was.  No job comes
twice, and nothing does as long as nobody lists a process by hand. -/
theorem Ran.walk_is_preorder {σ : Type} {P : System → Op → Prop} {w : World} (h : w.Ran P)
    (refuses : Allocator) (k : Koid) (deep : Bool) (f : Visitor σ) (own : σ) :
    let s := w.system
    let r := s.walk refuses k deep (Walk.logging f) (own, [])
    s.walk refuses k deep f own = (r.1, r.2.1, r.2.2.1) ∧
      (∀ j, s.preorder deep j = (s.liveChildren j).processes.map .process ++
        (s.liveChildren j).jobs.flatMap fun c =>
          .job c :: if deep then s.preorder deep c else []) ∧
      ((∀ c ∈ r.2.2.2, s.SameBelow k c.after) →
        Cuts s refuses deep k (s.preorder deep k) r.2.2.2 r.1.outcome) ∧
      ((∀ v t mine, (f v t mine).2.1 = t) → ∀ c ∈ r.2.2.2, s.SameBelow k c.after) ∧
      (∀ c, (s.preorder deep k).count (.job c) ≤ 1) ∧
      ((w.Ran fun _ op => ¬ op.Attaches) → (s.preorder deep k).Nodup) := by
  have hlineage := h.passed.lineage
  refine ⟨w.system.walk_logging refuses k deep f own [], hlineage.preorder_eq,
    System.walk_cuts hlineage refuses k deep f own, fun hf => ?_,
    hlineage.count_job_preorder_le k, fun hran => ?_⟩
  · exact h.passed.accounted.sameBelow_of_idle hf refuses k deep own
  · have hpassed : w.Passed False True :=
      hran.passed_of fun _ _ hop => ⟨hop, fun _ => trivial⟩
    exact hran.listedOnce.nodup_preorder hlineage hpassed.jobTree deep k

/-- A root with a process and two child jobs; the first one has a child job with a process. -/
def cousinOps : List Op :=
  [.createRootJob false, .createProcess 1024 Name.blank, .createJob 1024, .createJob 1026,
    .createProcess 1027 Name.blank, .createJob 1024]

theorem ran_cousins : (run cousinOps).Ran fun _ op => ¬ op.Attaches :=
  Ran.foldl .start ⟨id, id, id, id, id, id, trivial⟩

/-- Looks at so many children before it breaks off. -/
def patientVisitor : Visitor Nat := fun _ s n => (n ≠ 1, s, n - 1)

/-- A visitor that breaks off at its fourth visit has seen the first four of five. -/
theorem Ran.walk_is_preorder_of_cousins :
    let s := (run cousinOps).system
    let r := s.walk .generous 1024 true (Walk.logging patientVisitor) (4, [])
    Cuts s .generous true 1024 (s.preorder true 1024) r.2.2.2 r.1.outcome ∧
      (s.preorder true 1024).Nodup ∧ r.1.outcome = .ok false ∧
      s.preorder true 1024 = [.process 1025, .job 1026, .job 1027, .process 1028, .job 1029] ∧
      r.2.2.2.map Call.visit = [.process 1025, .job 1026, .job 1027, .process 1028] := by
  obtain ⟨-, -, hcuts, hidle, -, hnodup⟩ :=
    walk_is_preorder ran_cousins .generous 1024 true patientVisitor 4
  exact ⟨hcuts (hidle fun _ _ _ => rfl), hnodup ran_cousins, by cbv, by cbv, by cbv⟩

/-- A process that a client lists once more is visited once more. -/
theorem exists_walk_with_process_twice :
    let w := run [.createRootJob false, .createProcess 1024 Name.blank, .attachProcess 1024 1025]
    let r := w.system.walk .generous 1024 false (Walk.logging patientVisitor) (0, [])
    (w.Ran fun _ _ => True) ∧ r.1.outcome = .ok true ∧
      r.2.2.2.map Call.visit = [.process 1025, .process 1025] ∧
      ¬ (w.system.preorder false 1024).Nodup := by
  refine ⟨Ran.foldl .start (keep_any _ _), by cbv, by cbv, ?_⟩
  have htwice : (run [.createRootJob false, .createProcess 1024 Name.blank,
      .attachProcess 1024 1025]).system.preorder false 1024 =
      [.process 1025, .process 1025] := by cbv
  rw [htwice]
  decide

end World

end KernelObjects
