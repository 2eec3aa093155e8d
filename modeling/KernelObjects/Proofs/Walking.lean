import KernelObjects.Proofs.KillTree

/-
# What walks keep

A walk over the children of a job holds what its snapshots hold, calls the visitor at each child,
and gives everything back.  So what lending keeps and every visit keeps, the whole walk keeps,
whatever way it ends (`walk_keeps`).  The property may speak of what the visitor keeps for
itself.  The dues say what the walk holds at each point: a level of jobs not yet visited, and the
levels further out.  A walk over all VM objects holds them all at once and keeps the same
(`eachVmo_keeps`).

A walk that breaks off gives back at once whatever it holds, and one that goes on gives back piece
by piece.  So the dues after a part of a walk depend on how it ended, and the lemmas carry a
description of them (`owing`, `left`): the levels further out are due as long as somebody will go
on with them.

Nothing is said here about what is visited and in which order.  That takes the log of the calls,
which is a visitor with notes like any other (`Walk.logging`), so the lemmas here apply to it as
they stand.
-/

namespace KernelObjects

/-! ## 1. Walks over the children of a job

The lemmas follow the functions of the walk.  Each of them takes the dues further out as an
argument, and puts its own in front. -/

namespace Walk

variable {σ : Type}

/-- What is due for objects that are held. -/
def dues (ks : List Koid) : List Task := ks.map fun k => .release (.object k)

theorem dues_append (ks js : List Koid) : dues (ks ++ js) = dues ks ++ dues js :=
  List.map_append

/-- What holds of a world and of what a visitor keeps, whatever is lent and visited. -/
structure Keeps (f : Visitor σ) (I : World → σ → Prop) : Prop where
  lending : ∀ own, World.Lending fun w => I w own
  visit : ∀ v s own d, I ⟨s, d⟩ own → I ⟨(f v s own).2.1, d⟩ (f v s own).2.2

variable {f : Visitor σ} {I : World → σ → Prop}

/-- A snapshot is given back reference by reference. -/
theorem giveBack_keeps (h : Keeps f I) (w : Walk σ) (ks : List Koid) (d : List Task)
    (hi : I ⟨w.system, dues ks ++ d⟩ w.own) : I ⟨(w.giveBack ks).system, d⟩ w.own := by
  refine (h.lending w.own).releaseAll (ks.map Ref.object) ?_
  rw [List.map_map]
  exact hi

/-- The processes of a job are visited one after the other. -/
theorem visitProcesses_keeps (h : Keeps f I) (ps : List Koid) (w : Walk σ) (d : List Task)
    (hi : I ⟨w.system, d⟩ w.own) :
    I ⟨(visitProcesses f ps w).2.system, d⟩ (visitProcesses f ps w).2.own := by
  induction ps generalizing w with
  | nil => exact hi
  | cons p ps ih =>
    have hvisit : I ⟨(w.visit f (.process p)).2.system, d⟩ (w.visit f (.process p)).2.own :=
      h.visit _ _ _ d hi
    rw [visitProcesses]
    generalize w.visit f (.process p) = r at hvisit ⊢
    obtain ⟨goesOn, v⟩ := r
    cases goesOn with
    | true => exact ih v hvisit
    | false => exact hvisit

/-- What is due after a level was reached: its jobs, if the walk goes on. -/
def owing (d : List Task) : Except WalkEnd (List Koid) → List Task
  | .ok jobs => dues jobs ++ d
  | .error _ => d

/-- **Entering a job** borrows its living children for the snapshot, and gives the processes back
once they are visited. -/
theorem enter_keeps (h : Keeps f I) (w : Walk σ) (k : Koid) (d : List Task)
    (hi : I ⟨w.system, d⟩ w.own) :
    I ⟨(w.enter f k).2.system, owing d (w.enter f k).1⟩ (w.enter f k).2.own := by
  unfold enter System.snapshot
  dsimp only
  split
  · rename_i supply s he
    split at he
    · cases he
      exact hi
    · cases he
  · rename_i c supply s he
    split at he
    · cases he
    · cases he
      -- What is held for the snapshot is due after it: the jobs stay due when the processes were
      -- visited, unless the walk is over.
      have hhold := (h.lending w.own).hold k hi
      unfold System.hold System.snapshotDues at hhold
      have hvisits := visitProcesses_keeps h (w.system.liveChildren k).processes { w with
        system := (w.system.retainAll ((w.system.liveChildren k).processes.map .object)).retainAll
          ((w.system.liveChildren k).jobs.map .object)
        supply := { w.supply with asked := w.system.snapshotRequest k :: w.supply.asked } }
        (dues (w.system.liveChildren k).jobs ++ dues (w.system.liveChildren k).processes ++ d)
        hhold
      generalize visitProcesses f (w.system.liveChildren k).processes _ = r at hvisits ⊢
      obtain ⟨goesOn, v⟩ := r
      cases goesOn with
      | true =>
        dsimp only [owing] at hvisits ⊢
        refine giveBack_keeps h v _ _ ((h.lending _).reorder ?_ hvisits)
        rw [← List.append_assoc]
        exact List.perm_append_comm.append_right d
      | false =>
        refine giveBack_keeps h v _ d ?_
        rw [dues_append]
        exact hvisits

/-- What is due after a walk below a job: the references of the levels further out, if the walk
went to its end. -/
def left (outer : List Koid) (d : List Task) : WalkEnd → List Task
  | .finished => dues outer ++ d
  | _ => d

/-- With no level further out, nothing is left over. -/
theorem left_nil (d : List Task) (e : WalkEnd) : left [] d e = d := by
  cases e <;> rfl

/-- Going below a job gives back the job, and everything if the walk breaks off. -/
def Below (I : World → σ → Prop) (below : List Koid → Koid → Walk σ → WalkEnd × Walk σ) : Prop :=
  ∀ outer j w d, I ⟨w.system, .release (.object j) :: (dues outer ++ d)⟩ w.own →
    I ⟨(below outer j w).2.system, left outer d (below outer j w).1⟩ (below outer j w).2.own

theorem stay_below (h : Keeps f I) :
    Below I (stay : List Koid → Koid → Walk σ → WalkEnd × Walk σ) :=
  fun outer j w d hi => giveBack_keeps h w [j] (dues outer ++ d) hi

/-- **The loop over the child jobs** gives each one back after what is below it was walked. -/
theorem visitJobs_keeps (h : Keeps f I)
    {below : List Koid → Koid → Walk σ → WalkEnd × Walk σ} (hb : Below I below)
    (outer js : List Koid) (w : Walk σ) (d : List Task)
    (hi : I ⟨w.system, dues js ++ (dues outer ++ d)⟩ w.own) :
    I ⟨(visitJobs f below outer js w).2.system,
      left outer d (visitJobs f below outer js w).1⟩ (visitJobs f below outer js w).2.own := by
  induction js generalizing w with
  | nil => exact hi
  | cons j js ih =>
    -- The references to the jobs of this level stand before those of the levels further out.  The
    -- next job is moved to the front, and what is below it is done with all others as what lies
    -- outside.
    have hperm : (dues (j :: js) ++ (dues outer ++ d)).Perm
        (.release (.object j) :: (dues (outer ++ js) ++ d)) := by
      rw [dues_append, ← List.append_assoc]
      exact (List.perm_append_comm.append_right d).cons _
    have hvisit : I ⟨(w.visit f (.job j)).2.system,
        .release (.object j) :: (dues (outer ++ js) ++ d)⟩ (w.visit f (.job j)).2.own :=
      (h.lending _).reorder hperm (h.visit _ _ _ _ hi)
    rw [visitJobs]
    generalize w.visit f (.job j) = r at hvisit ⊢
    obtain ⟨goesOn, v⟩ := r
    cases goesOn with
    | false => exact giveBack_keeps h v (j :: (outer ++ js)) d hvisit
    | true =>
      dsimp only
      have hbelow := hb (outer ++ js) j v d hvisit
      generalize below (outer ++ js) j v = r at hbelow ⊢
      obtain ⟨e, u⟩ := r
      cases e with
      | finished =>
        refine ih u ((h.lending _).reorder ?_ hbelow)
        show (dues (outer ++ js) ++ d).Perm _
        rw [dues_append, ← List.append_assoc]
        exact List.perm_append_comm.append_right d
      | stopped => exact hbelow
      | refused => exact hbelow

/-- A level that cannot be reached ends the walk. -/
theorem enter_ne_finished (w : Walk σ) (k : Koid) (v : Walk σ) :
    w.enter f k ≠ (.error .finished, v) := by
  unfold enter
  split
  · simp
  · split <;> simp

/-- Reaching a level below a job and walking on there. -/
theorem level_keeps (h : Keeps f I)
    {below : List Koid → Koid → Walk σ → WalkEnd × Walk σ} (hb : Below I below)
    (outer : List Koid) (j : Koid) (w : Walk σ) (d : List Task) {r : WalkEnd × Walk σ}
    (hr : r = match w.enter f j with
      | (.error e, w) => (e, w.giveBack (j :: outer))
      | (.ok jobs, w) => visitJobs f below outer jobs (w.giveBack [j]))
    (hi : I ⟨w.system, .release (.object j) :: (dues outer ++ d)⟩ w.own) :
    I ⟨r.2.system, left outer d r.1⟩ r.2.own := by
  subst hr
  have henter := enter_keeps h w j (.release (.object j) :: (dues outer ++ d)) hi
  have hend := enter_ne_finished (f := f) w j
  generalize w.enter f j = r at henter hend ⊢
  obtain ⟨e | jobs, v⟩ := r
  · have hback := giveBack_keeps h v (j :: outer) d henter
    cases e with
    | finished => exact absurd rfl (hend v)
    | stopped => exact hback
    | refused => exact hback
  · have hheld := (h.lending _).reorder List.perm_middle henter
    exact visitJobs_keeps h hb outer jobs _ d
      (giveBack_keeps h v [j] (dues jobs ++ (dues outer ++ d)) hheld)

/-- **The walk below a level**, by induction on the levels that are left. -/
theorem descend_below (h : Keeps f I) (levels : Nat) : Below I (descend f levels) := by
  induction levels with
  | zero =>
    intro outer j w d hi
    refine level_keeps h (stay_below h) outer j w d ?_ hi
    unfold descend
    generalize w.enter f j = r
    obtain ⟨e | jobs, v⟩ := r <;> rfl
  | succ n ih =>
    intro outer j w d hi
    refine level_keeps h ih outer j w d ?_ hi
    unfold descend
    generalize w.enter f j = r
    obtain ⟨e | jobs, v⟩ := r <;> rfl

end Walk

/-- **What lending and visits keep, a walk keeps.** -/
theorem System.walk_keeps {σ : Type} {f : Visitor σ} {I : World → σ → Prop} (h : Walk.Keeps f I)
    (s : System) (refuses : Allocator) (k : Koid) (deep : Bool) (own : σ) (d : List Task)
    (hi : I ⟨s, d⟩ own) :
    I ⟨(s.walk refuses k deep f own).2.1, d⟩ (s.walk refuses k deep f own).2.2 := by
  have henter := Walk.enter_keeps h { system := s, supply := ⟨refuses, []⟩, own } k d hi
  unfold walk
  dsimp only
  generalize Walk.enter _ f k = r at henter ⊢
  obtain ⟨e | jobs, v⟩ := r
  · exact henter
  · have hbelow : Walk.Below I (if deep then
        Walk.descend f ((s.jobs[k]?.map Job.maxHeight).getD 0) else Walk.stay) := by
      split
      · exact Walk.descend_below h _
      · exact Walk.stay_below h
    have hjobs := Walk.visitJobs_keeps h hbelow [] jobs v d henter
    rw [Walk.left_nil] at hjobs
    exact hjobs

/-! ## 2. Walks over VM objects -/

namespace System

variable {σ : Type} {f : VmoId → System → σ → Bool × System × σ}

/-- The walk over all VM objects visits a list that was made at the start. -/
theorem visitVmos_keeps {I : System → σ → Prop} (vs : List VmoId)
    (hf : ∀ v ∈ vs, ∀ s own, I s own → I (f v s own).2.1 (f v s own).2.2) {s : System}
    {own : σ} (hi : I s own) : I (visitVmos f vs s own).2.1 (visitVmos f vs s own).2.2 := by
  induction vs generalizing s own with
  | nil => exact hi
  | cons v vs ih =>
    have hvisit := hf v List.mem_cons_self s own hi
    rw [visitVmos]
    generalize f v s own = r at hvisit ⊢
    obtain ⟨goesOn, t, mine⟩ := r
    cases goesOn with
    | true => exact ih (fun u hu => hf u (List.mem_cons_of_mem _ hu)) hvisit
    | false => exact hvisit

/-- What is to be visited is there. -/
theorem present_of_mem_vmosToVisit {s : System} {r : Ref} (hr : r ∈ s.vmosToVisit.map Ref.vmo) :
    s.Present r := by
  obtain ⟨v, hv, rfl⟩ := List.mem_map.1 hr
  exact (List.mem_filter.1 hv).2

/-- **What lending and visits keep, a walk over all VM objects keeps.** -/
theorem eachVmo_keeps {I : World → σ → Prop} (hl : ∀ own, World.Lending fun w => I w own)
    (hf : ∀ v s own d, I ⟨s, d⟩ own → I ⟨(f v s own).2.1, d⟩ (f v s own).2.2) (s : System)
    (enough : Nat → Bool) (own : σ) (d : List Task) (hi : I ⟨s, d⟩ own) :
    I ⟨(s.eachVmo enough f own).2.1, d⟩ (s.eachVmo enough f own).2.2 := by
  unfold eachVmo
  split
  · dsimp only
    have hheld := (hl own).retainAll (fun _ => present_of_mem_vmosToVisit) hi
    have hvisits := visitVmos_keeps (I := fun t mine =>
      I ⟨t, (s.vmosToVisit.map Ref.vmo).map .release ++ d⟩ mine) s.vmosToVisit
      (fun v _ t mine => hf v t mine _) hheld
    exact (hl _).releaseAll _ hvisits
  · exact hi

end System

end KernelObjects
